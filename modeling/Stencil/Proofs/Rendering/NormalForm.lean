/-
# What is left after rendering

Rendering is there to resolve directives and usages of components.  This module shows that it
resolves all of them: no element that hangs in a rendered document, at whatever depth and however it
came there, carries a directive or is a usage of a registered component.

The argument is made on the recursion on siblings, where it is an induction on the size of what is
still to do (`Siblings.normal_of_render`).  An element enters the result in one place only, where
its directives were taken off and no component was found for it; what comes from the body of a
component was rendered itself, with fewer levels to go.

Conversely, normal trees are rendered as they are (`Siblings.render_of_normal`).
-/
import Stencil.Proofs.Rendering.Refinement
import Stencil.Proofs.Rendering.Usages

namespace Stencil

open Stencil.Tree

/-! ## 1. Normal trees -/

/-- An element as rendering leaves it: without directives, and no usage of a component. -/
structure Element.Normal (l : Library) (e : Element) : Prop where
  declares_eq : e.declares = none
  branch_eq : e.branch = none
  not_usage : l.contains e.name = false

/-- A node as rendering leaves it. -/
def NodeKind.Normal (l : Library) (kind : NodeKind) (_ : List Tree) : Prop :=
  ∀ e, kind = .element e → e.Normal l

theorem Element.normal_plain {l : Library} {e : Element} (h : l.lookup e.name = none) :
    e.plain.Normal l :=
  ⟨rfl, rfl, by rw [Library.contains]; exact congrArg Option.isSome h⟩

/-! ## 2. Rendering on lists of siblings -/

namespace Siblings

variable {l : Library} {expand : Expansion}

/-- The shape of a tree does not depend on directives. -/
theorem unbranched_shaped : Unbranched Shaped := by
  rintro e children ⟨hfragment, hpaired⟩
  refine ⟨nofun, fun hne => ?_⟩
  obtain ⟨e', heq, hvoid, hclosing⟩ := hpaired hne
  obtain rfl := NodeKind.element.inj heq
  exact ⟨e.withoutBranch, rfl, hvoid, hclosing⟩

/-- The answer to usages is normal. -/
def Expansion.Normal (l : Library) (expand : Expansion) : Prop :=
  ∀ {e : Element} {children : List Tree} {c : Component} {out : List Tree},
    expand e children c = .ok out → EachAll (NodeKind.Normal l) out

/-- What comes to the place of an element is normal, if what comes of its children is. -/
theorem normal_of_placed (hexpand : expand.Normal l) {e : Element} {children here : List Tree}
    (hchildren : ∀ {inside}, render l expand children = .ok inside →
      EachAll (NodeKind.Normal l) inside)
    (h : placed l expand e children = .ok here) : EachAll (NodeKind.Normal l) here := by
  unfold placed at h
  cases hlookup : l.lookup e.name with
  | some c =>
    rw [hlookup] at h
    exact hexpand h
  | none =>
    rw [hlookup] at h
    obtain ⟨inside, hrender, rfl⟩ := exists_of_map_eq_ok h
    refine ⟨⟨?_, hchildren hrender⟩, trivial⟩
    rintro _ ⟨⟩
    exact Element.normal_plain hlookup

/-- **All that rendering leaves is normal**, if the bodies of components are. -/
theorem normal_of_render (hexpand : expand.Normal l) {ts out : List Tree}
    (hts : EachAll Shaped ts) (h : render l expand ts = .ok out) :
    EachAll (NodeKind.Normal l) out := by
  match ts with
  | [] =>
    rw [render_nil] at h
    obtain rfl := Except.ok.inj h
    trivial
  | .node kind children :: behind =>
    obtain ⟨⟨hkind, hchildren⟩, hbehind⟩ := hts
    cases kind with
    | element e =>
      rw [render_element] at h
      match hsettle : settle e behind with
      | .error fault =>
        rw [hsettle] at h
        exact absurd h (by simp)
      | .ok (stays, left) =>
        have hleft := eachAll_of_settle unbranched_shaped hsettle hbehind
        rw [hsettle] at h
        cases stays with
        | false => exact normal_of_render hexpand hleft h
        | true =>
          dsimp only at h
          cases hplaced : placed l expand e children with
          | error fault =>
            rw [hplaced] at h
            exact absurd h (by simp)
          | ok here =>
            rw [hplaced] at h
            obtain ⟨tail, htail, rfl⟩ := exists_of_map_eq_ok h
            have hhere := normal_of_placed hexpand (normal_of_render hexpand hchildren) hplaced
            exact eachAll_append.mpr ⟨hhere, normal_of_render hexpand hleft htail⟩
    | _ =>
      rw [render_of_none rfl] at h
      obtain ⟨tail, htail, rfl⟩ := exists_of_map_eq_ok h
      obtain rfl := hkind.children_eq_nil rfl
      exact ⟨⟨fun _ he => absurd he (by simp), trivial⟩, normal_of_render hexpand hbehind htail⟩
termination_by sizeAll ts
decreasing_by
  all_goals simp only [sizeAll_cons, size_node]
  all_goals first
    | omega
    | have := sizeAll_of_settle hsettle; omega

/-- **Normal trees are rendered as they are.** -/
theorem render_of_normal {ts : List Tree} (h : EachAll (NodeKind.Normal l) ts) :
    render l expand ts = .ok ts := by
  match ts with
  | [] => exact render_nil
  | .node kind children :: behind =>
    obtain ⟨⟨hkind, hchildren⟩, hbehind⟩ := h
    have hleft := render_of_normal hbehind
    cases kind with
    | element e =>
      obtain ⟨hdeclares, hbranch, husage⟩ := hkind e rfl
      have hplain : e.plain = e := by
        obtain ⟨name, declares, branch, attributes, selfClosing⟩ := e
        obtain rfl : declares = none := hdeclares
        obtain rfl : branch = none := hbranch
        rfl
      have hlookup : l.lookup e.name = none := by
        rw [Library.contains] at husage
        exact Option.not_isSome_iff_eq_none.mp (by simp [husage])
      have hinside := render_of_normal hchildren
      rw [render_element, settle, hbranch]
      dsimp only
      rw [placed, hlookup]
      dsimp only
      rw [hinside, hleft, hplain]
      rfl
    | _ =>
      rw [render_of_none rfl, hleft]
      rfl
termination_by sizeAll ts
decreasing_by
  all_goals simp only [sizeAll_cons, size_node]
  all_goals omega

section Sources

variable {limit : UInt64} {source : Text} {ts behind : List Tree}

theorem renderSource_of_error {fault : MarkupFault} (hparse : Tree.parse source = .error fault)
    (levels : Nat) : renderSource l limit levels source = .error (.markup fault) := by
  obtain ⟨expand, hlevels⟩ := exists_renderSource_eq l limit levels
  rw [hlevels, renderWith, hparse]

theorem renderSource_of_normal (hparse : Tree.parse source = .ok ts)
    (h : EachAll (NodeKind.Normal l) ts) (levels : Nat) :
    renderSource l limit levels source = .ok ts := by
  obtain ⟨expand, hlevels⟩ := exists_renderSource_eq l limit levels
  rw [hlevels, renderWith, hparse]
  exact render_of_normal h

/-- **A usage in front of normal trees** renders to its filled body, one level down. -/
theorem renderSource_usage {e : Element} {children : List Tree} {c : Component}
    (hparse : Tree.parse source = .ok (.node (.element e) children :: behind))
    (hbranch : e.branch = none) (hlookup : l.lookup e.name = some c)
    (h : EachAll (NodeKind.Normal l) behind) (levels : Nat) :
    renderSource l limit (levels + 1) source =
      (renderSource l limit levels (filledBody e.plain children c)).map (· ++ behind) := by
  rw [renderSource, renderWith, hparse]
  dsimp only
  rw [render_element, settle, hbranch]
  dsimp only
  rw [placed, hlookup, render_of_normal h]
  dsimp only
  cases renderSource l limit levels (filledBody e.plain children c) <;> rfl

/-- **A usage that stands alone** is answered with the body of its component. -/
theorem renderSource_alone {usage : Element} {children : List Tree} {c : Component}
    (hparse : Tree.parse source = .ok [.node (.element usage) children])
    (hbranch : usage.branch = none) (hlookup : l.lookup usage.name = some c) (levels : Nat) :
    renderSource l limit levels source = expansionAt l limit levels usage.plain children c := by
  rw [renderSource_eq, renderWith, hparse]
  dsimp only
  rw [render_singleton hbranch, placed, hlookup]

/-- **A usage in an element that is none** is answered in its place, and the element stays around
it. -/
theorem renderSource_inside {outer usage : Element} {children : List Tree} {c : Component}
    (hparse : Tree.parse source = .ok [.node (.element outer) [.node (.element usage) children]])
    (houter : outer.branch = none) (hnone : l.lookup outer.name = none)
    (hbranch : usage.branch = none) (hlookup : l.lookup usage.name = some c) (levels : Nat) :
    renderSource l limit levels source =
      (expansionAt l limit levels usage.plain children c).map
        fun inside => [.node (.element outer.plain) inside] := by
  rw [renderSource_eq, renderWith, hparse]
  dsimp only
  rw [render_singleton houter, placed, hnone]
  dsimp only
  rw [render_singleton hbranch, placed, hlookup]

end Sources

theorem normal_of_source {limit : UInt64} {levels : Nat} {source : Text} {ts : List Tree}
    (h : renderSource l limit levels source = .ok ts) : EachAll (NodeKind.Normal l) ts := by
  have hwith : ∀ {expand : Expansion} {source : Text} {ts : List Tree}, expand.Normal l →
      renderWith l expand source = .ok ts → EachAll (NodeKind.Normal l) ts := by
    intro expand source ts hexpand h
    unfold renderWith at h
    cases hparse : Tree.parse source with
    | error fault =>
      rw [hparse] at h
      exact absurd h (by simp)
    | ok parsed =>
      rw [hparse] at h
      exact normal_of_render hexpand (shaped_of_parse hparse) h
  induction levels generalizing source ts with
  | zero => exact hwith (fun h => absurd h (by simp)) h
  | succ levels ih => exact hwith (fun h => ih h) h

end Siblings

/-! ## 3. Rendering documents -/

namespace Document

variable {d : Document}

/-- `d.Reaches a x`: the way down from `a`, from parents to children, leads to `x`. -/
inductive Reaches (d : Document) (a : NodeId) : NodeId → Prop
  | refl : Reaches d a a
  | step {x y : NodeId} : Reaches d a x → y ∈ d.children x → Reaches d a y

theorem kind_of_element? {id : NodeId} {e : Element} (h : d.element? id = some e) :
    d.kind id = .element e := by
  unfold element? at h
  cases hkind : d.kind id with
  | element e' =>
    rw [hkind] at h
    exact congrArg _ (Option.some.inj h)
  | _ =>
    rw [hkind] at h
    exact absurd h (by simp [NodeKind.element?])

/-- What holds everywhere in the tree at a node holds everywhere in the trees further down. -/
theorem Reaches.each {Q : NodeKind → List Tree → Prop} (hd : d.WellFormed) {a x : NodeId}
    (hx : d.Reaches a x) (ha : (d.tree a).Each Q) : (d.tree x).Each Q := by
  induction hx with
  | refl => exact ha
  | step _ hy ih =>
    rw [tree_eq hd] at ih
    exact eachAll_iff.mp ih.2 _ (List.mem_map_of_mem hy)

end Document

namespace Render

/-- **A rendered document is normal**: no element that hangs at its root declares a component, has
a place in a chain of alternatives or is the usage of a component. -/
theorem normal_of_renderSource {l : Library} {limit : UInt64} {levels : Nat} {source : Text}
    {d : Document} (h : renderSource l limit levels source = .ok d) {id : NodeId}
    (hid : d.Reaches Document.root id) {e : Element} (he : d.element? id = some e) :
    e.Normal l := by
  have houtcome := renderSource_outcome l limit levels source
  rw [h] at houtcome
  obtain ⟨hd, hkind, htrees⟩ := houtcome
  have hroot : (d.tree Document.root).Each (NodeKind.Normal l) := by
    rw [Document.tree_root hd, hkind]
    exact ⟨fun _ he => absurd he (by simp), Siblings.normal_of_source htrees⟩
  have hnode := hid.each hd hroot
  rw [Document.tree_eq hd] at hnode
  exact hnode.1 e (Document.kind_of_element? he)

/-- A library whose one component, of the key `X`, has the body `<i>y</i>`. -/
def sampleLibrary : Library :=
  ⟨[(['X'], ⟨['X'], ['x'],
    .ofTrees [.node (.element ⟨['i'], some ['x'], none, [], false⟩) [.leaf (.text ['y'])]]⟩)]⟩

/-- What `<u @if=1><X/></u>` renders to: the usage is out, and the body of the component hangs under
the element that was chosen. -/
def sampleRendered : Document :=
  ⟨#[⟨.fragment, none, [1]⟩, ⟨.element ⟨['u'], none, none, [], false⟩, some 0, [3]⟩,
    ⟨.element ⟨['X'], none, none, [], true⟩, none, []⟩,
    ⟨.element ⟨['i'], none, none, [], false⟩, some 1, [4]⟩, ⟨.text ['y'], some 3, []⟩]⟩

theorem normal_sampleRendered :
    renderSource sampleLibrary 1 1 "<u @if=1><X/></u>".toList = .ok sampleRendered ∧
    Element.Normal sampleLibrary ⟨['i'], none, none, [], false⟩ := by
  have hrender : (renderSource sampleLibrary 1 1 "<u @if=1><X/></u>".toList).toOption =
      some sampleRendered := by decide +kernel
  have hok := eq_ok_of_toOption hrender
  have hreaches : sampleRendered.Reaches Document.root 3 :=
    .step (.step .refl (by decide : 1 ∈ sampleRendered.children 0))
      (by decide : 3 ∈ sampleRendered.children 1)
  exact ⟨hok, normal_of_renderSource hok hreaches (by decide)⟩

end Render

end Stencil
