/-
# How deep components may nest

The greatest depth of the settings is a limit that can be reached: components may nest exactly as
deep as it says, and one level more is a fault.  The module shows it on the components that do
nothing but nest.  Each has the body `<x><Next/></x>`, with the usage of another one in it, and the
last has `<x></x>`, or begins with the first again.

One step is the same everywhere.  The usage of a component with a body of this form is answered, one
level down, with the answer to the usage in it, in one more element `x` (`Leads.expansion_succ`).
So a walk along the components goes down one level with each, and it ends where the levels do, at
the component that is next then (`expansion_tooDeep`), or before, at an empty body
(`expansion_ok`).
-/
import Stencil.Proofs.Component.Registration
import Stencil.Proofs.Component.Wrapper

namespace Stencil

open Stencil.Tree (leaf printAll)

namespace Ladder

/-! ## 1. Bodies -/

/-- The usage of a component without attributes: `<Key/>`. -/
def usage (key : Text) : Text := '<' :: key ++ ['/', '>']

/-- The element that is the usage. -/
def rung (key : Text) : Element := { name := key, selfClosing := true }

/-- The body with the usage of the next component in it, if there is one. -/
def body (next : Option Text) : Text := wrapped ['x'] (next.elim [] usage)

/-- What stands in the element of a body. -/
def inside (next : Option Text) : List Tree := next.elim [] fun key => [leaf (.element (rung key))]

section Bodies

variable {key : Text} {next : Option Text}

theorem usualName_x : Tag.UsualName ['x'] := ⟨by decide, List.all_eq_true.mp (by decide)⟩

theorem canonicalAll_inside (hnext : ∀ key ∈ next, Tag.UsualName key) :
    Tree.CanonicalAll (inside next) := by
  cases next with
  | none => trivial
  | some key =>
    have hkey := hnext key rfl
    refine ⟨⟨⟨hkey.alpha, hkey.chars, nofun, List.nodup_nil⟩, fun _ => rfl, ?_⟩, nofun, trivial⟩
    split
    · exact Or.inl rfl
    · trivial

theorem printAll_inside (next : Option Text) :
    printAll .verbatim (inside next) = next.elim [] usage := by
  cases next with
  | none => rfl
  | some key =>
    simp [inside, usage, printAll, Tree.print, leaf, Element.printAround, Element.printOpening,
      rung]

theorem parse_inside (hnext : ∀ key ∈ next, Tag.UsualName key) :
    Tree.parse (next.elim [] usage) = .ok (inside next) := by
  have hcanonical := canonicalAll_inside hnext
  rw [← printAll_inside]
  exact Tree.parse_legible (Tree.shapedAll_of_canonical hcanonical)
    (Tree.legibleAll_of_canonical hcanonical)

/-- **A body has no slots**, so it is read as it is, whatever the usage that it is filled for. -/
theorem parse_filled {c : Component} (hbody : c.body = body next)
    (hnext : ∀ key ∈ next, Tag.UsualName key) (e : Element) (children : List Tree) :
    Tree.parse (Siblings.filledBody e children c) =
      .ok [.node (.element (.named ['x'])) (inside next)] := by
  have hslots : '{' ∉ body next := by
    cases next with
    | none => decide
    | some key => simp [body, wrapped, usage, (hnext key rfl).brace_not_mem]
  rw [Siblings.filledBody, hbody, Body.fill_of_not_mem hslots, body]
  exact Tree.parse_wrapped usualName_x (by decide) (by decide) (parse_inside hnext)

end Bodies

/-! ## 2. Steps -/

/-- The library has a component of the key with the usage of the next one in its body. -/
def Leads (l : Library) (key : Text) (next : Option Text) : Prop :=
  ∃ c, l.lookup key = some c ∧ c.body = body next ∧ ∀ key ∈ next, Tag.UsualName key

/-- The element is no usage of a component, since its name is in small letters. -/
theorem lookup_x (calls : List Text) : (Library.afterCalls calls).lookup ['x'] = none :=
  (Library.records_afterCalls calls).lookup_of_isLower (List.cons_ne_nil 'x' [])
    (List.all_eq_true.mp (by decide))

/-- As many elements `x` in each other. -/
def nested (n : Nat) : List Tree := Tree.nested ['x'] n []

section Steps

variable {l : Library} {limit : UInt64} {key : Text} {c : Component}

/-- The usage of a component is answered, one level down, with the answer to the usage in its body,
in one more element. -/
theorem Leads.expansion_succ {next : Text} {d : Component} (h : Leads l key (some next))
    (hx : l.lookup ['x'] = none) (hc : l.lookup key = some c) (hd : l.lookup next = some d)
    (e : Element) (children : List Tree) (levels : Nat) :
    Siblings.expansionAt l limit (levels + 1) e children c =
      (Siblings.expansionAt l limit levels (rung next) [] d).map
        fun ts => [.node (.element (.named ['x'])) ts] := by
  obtain ⟨c', hc', hbody, hnext⟩ := h
  obtain rfl := Option.some.inj (hc.symm.trans hc')
  exact Siblings.renderSource_inside (parse_filled hbody hnext e children) rfl hx rfl hd levels

/-- An empty body ends the walk. -/
theorem Leads.expansion_last (h : Leads l key none) (hx : l.lookup ['x'] = none)
    (hc : l.lookup key = some c) (e : Element) (children : List Tree) (levels : Nat) :
    Siblings.expansionAt l limit (levels + 1) e children c = .ok (nested 1) := by
  obtain ⟨c', hc', hbody, hnext⟩ := h
  obtain rfl := Option.some.inj (hc.symm.trans hc')
  have hnormal : Tree.EachAll (NodeKind.Normal l) (nested 1) := by
    refine ⟨⟨?_, trivial⟩, trivial⟩
    rintro _ ⟨⟩
    exact Element.normal_plain (e := .named ['x']) hx
  exact Siblings.renderSource_of_normal (parse_filled hbody hnext e children) hnormal levels

/-! A walk goes along keys of which each leads to the next. -/

variable {keys : Nat → Text}

/-- **Where the levels end, the next usage is too deep.** -/
theorem expansion_tooDeep (hx : l.lookup ['x'] = none) {levels : Nat}
    (hleads : ∀ i < levels, Leads l (keys i) (some (keys (i + 1))))
    (hfound : ∀ i ≤ levels, ∃ c, l.lookup (keys i) = some c ∧ c.key = keys i)
    (hc : l.lookup (keys 0) = some c) (e : Element) (children : List Tree) :
    Siblings.expansionAt l limit levels e children c = .error (.tooDeep (keys levels) limit) := by
  induction levels generalizing keys c e children with
  | zero =>
    obtain ⟨c', hc', hkey⟩ := hfound 0 (Nat.le_refl 0)
    obtain rfl := Option.some.inj (hc.symm.trans hc')
    rw [← hkey]
    rfl
  | succ levels ih =>
    obtain ⟨d, hd, -⟩ := hfound 1 (by omega)
    have hrest := @ih d (fun i => keys (i + 1)) (fun i hi => hleads (i + 1) (by omega))
      (fun i hi => hfound (i + 1) (by omega)) hd (rung (keys 1)) []
    rw [(hleads 0 (by omega)).expansion_succ hx hc hd, hrest]
    rfl

/-- **Where the components end before, there is an element for each.** -/
theorem expansion_ok (hx : l.lookup ['x'] = none) {steps : Nat}
    (hleads : ∀ i < steps, Leads l (keys i) (some (keys (i + 1))))
    (hlast : Leads l (keys steps) none) (hc : l.lookup (keys 0) = some c) (e : Element)
    (children : List Tree) (levels : Nat) :
    Siblings.expansionAt l limit (levels + steps + 1) e children c = .ok (nested (steps + 1)) := by
  induction steps generalizing keys c e children with
  | zero => exact hlast.expansion_last hx hc e children levels
  | succ steps ih =>
    have hnext : ∃ d, l.lookup (keys 1) = some d := by
      cases steps with
      | zero => exact hlast.imp fun d hd => hd.1
      | succ steps => exact (hleads 1 (by omega)).imp fun d hd => hd.1
    obtain ⟨d, hd⟩ := hnext
    have hrest := @ih d (fun i => keys (i + 1)) (fun i hi => hleads (i + 1) (by omega)) hlast hd
      (rung (keys 1)) []
    rw [← Nat.add_assoc, (hleads 0 (by omega)).expansion_succ hx hc hd, hrest]
    rfl

end Steps

end Ladder

/-! ## 3. Ladders -/

/-- The names of components that nest.  Their keys are different and can be used. -/
structure Ladder where
  names : List Text
  ne_nil : names ≠ []
  nodup_keys : (names.map ComponentName.key).Nodup
  usable : ∀ name ∈ names, ComponentName.Usable (ComponentName.key name)

namespace Ladder

variable (w : Ladder)

/-- How many components there are. -/
def height : Nat := w.names.length

theorem height_pos : 0 < w.height := List.length_pos_iff.mpr w.ne_nil

/-- The name at a place.  Places are counted on from the last to the first. -/
def nameAt (i : Nat) : Text := w.names.get ⟨i % w.height, Nat.mod_lt i w.height_pos⟩

/-- The key of the component at a place. -/
def keyAt (i : Nat) : Text := ComponentName.key (w.nameAt i)

/-- What the body of the component at a place uses: the next one, and the last one nothing. -/
def above (i : Nat) : Option Text :=
  if i + 1 < w.height then some (w.keyAt (i + 1)) else none

/-- What the body of the component at a place uses: the next one, and the last one the first. -/
def around (i : Nat) : Option Text := some (w.keyAt ((i + 1) % w.height))

/-- After the calls there are the components, each with the usage of `next` in its body. -/
def DeclaredBy (next : Nat → Option Text) (calls : List Text) : Prop :=
  ∀ i < w.height, ∃ c, (Library.afterCalls calls).lookup (w.keyAt i) = some c ∧
    c.body = body (next i)

/-- The declarations of the components as they are written, each a source of its own. -/
def sources (next : Nat → Option Text) : List Text :=
  (List.range w.height).map fun i => declaration ['x'] (w.nameAt i) ((next i).elim [] usage)

variable {w}

theorem nameAt_mem (i : Nat) : w.nameAt i ∈ w.names := List.get_mem _ _

theorem keyAt_mod (i : Nat) : w.keyAt (i % w.height) = w.keyAt i := by
  simp [keyAt, nameAt]

theorem usualName_keyAt (i : Nat) : Tag.UsualName (w.keyAt i) :=
  Tag.usualName_key (w.usable _ (nameAt_mem i)).alpha

theorem eq_of_keyAt_eq {i j : Nat} (hi : i < w.height) (hj : j < w.height)
    (h : w.keyAt i = w.keyAt j) : i = j := by
  have hname : w.nameAt i = w.nameAt j :=
    List.inj_on_of_nodup_map w.nodup_keys (nameAt_mem i) (nameAt_mem j) h
  have hplace := List.nodup_iff_injective_get.mp (w.nodup_keys.of_map _) hname
  have hmod : i % w.height = j % w.height := congrArg Fin.val hplace
  rwa [Nat.mod_eq_of_lt hi, Nat.mod_eq_of_lt hj] at hmod

theorem usualName_above (w : Ladder) (i : Nat) : ∀ key ∈ w.above i, Tag.UsualName key := by
  intro key h
  unfold above at h
  split at h
  · obtain rfl := Option.some.inj h
    exact usualName_keyAt _
  · exact absurd h nofun

theorem usualName_around (w : Ladder) (i : Nat) : ∀ key ∈ w.around i, Tag.UsualName key := by
  intro key h
  obtain rfl := Option.some.inj h
  exact usualName_keyAt _

/-- **A call for each declaration** is enough. -/
theorem declaredBy_sources {next : Nat → Option Text}
    (hnext : ∀ i, ∀ key ∈ next i, Tag.UsualName key) : w.DeclaredBy next (w.sources next) := by
  let declared := (List.range w.height).map fun i =>
    (w.nameAt i, Tree.declaringAll ['x'] (w.nameAt i) (inside (next i)))
  have hone : ∀ i, Library.declarationsOf
      (declaration ['x'] (w.nameAt i) ((next i).elim [] usage)) =
        [(w.nameAt i, .declaringAll ['x'] (w.nameAt i) (inside (next i)))] := fun i => by
    have hkey := (w.usable _ (nameAt_mem i)).ne_nil
    have hnone : Tree.declarations (inside (next i)) = [] := by cases next i <;> rfl
    rw [← printAll_inside]
    exact Library.declarationsOf_declaration usualName_x (by decide) (by decide) hkey
      (canonicalAll_inside (hnext i)) hnone
  have hdeclared : (w.sources next).flatMap Library.declarationsOf = declared := by
    rw [sources, List.flatMap_map, List.flatMap_congr fun i _ => hone i]
    exact List.map_eq_flatMap.symm
  have hrecords := Library.records_afterCalls (w.sources next)
  rw [hdeclared] at hrecords
  have hnodup : (declared.map fun x => ComponentName.key x.1).Nodup := by
    rw [List.map_map]
    exact List.nodup_range.map_on fun i hi j hj heq =>
      eq_of_keyAt_eq (List.mem_range.mp hi) (List.mem_range.mp hj) heq
  intro i hi
  refine ⟨_, hrecords.lookup_of_mem hnodup (List.mem_map.mpr ⟨i, List.mem_range.mpr hi, rfl⟩), ?_⟩
  rw [Component.body_declaring _ (by decide), printAll_inside, body]

/-! ## 4. Usages of a ladder -/

section Rendering

variable {calls : List Text} {next : Nat → Option Text}

theorem DeclaredBy.leads (h : w.DeclaredBy next calls)
    (hnext : ∀ i, ∀ key ∈ next i, Tag.UsualName key)
    {i : Nat} (hi : i < w.height) : Leads (.afterCalls calls) (w.keyAt i) (next i) := by
  obtain ⟨c, hc, hbody⟩ := h i hi
  exact ⟨c, hc, hbody, hnext i⟩

theorem DeclaredBy.found (h : w.DeclaredBy next calls) (i : Nat) :
    ∃ c, (Library.afterCalls calls).lookup (w.keyAt i) = some c ∧ c.key = w.keyAt i := by
  obtain ⟨c, hc, -⟩ := h (i % w.height) (Nat.mod_lt i w.height_pos)
  rw [keyAt_mod] at hc
  exact ⟨c, hc, (Library.records_afterCalls calls).key_of_lookup hc⟩

/-- The usage of the first component is answered with what comes of all. -/
theorem render_first {c : Component}
    (hc : (Library.afterCalls calls).lookup (w.keyAt 0) = some c) (settings : Settings) :
    Engine.render ⟨.afterCalls calls, settings⟩ (usage (w.keyAt 0)) =
      (Siblings.expansionAt (.afterCalls calls) settings.maxDepth settings.maxDepth.toNat
        (rung (w.keyAt 0)) [] c).map (printAll settings.layout) := by
  have hfirst : ∀ key ∈ some (w.keyAt 0), Tag.UsualName key := by simp [usualName_keyAt]
  have hparse : Tree.parse (usage (w.keyAt 0)) = .ok [.node (.element (rung (w.keyAt 0))) []] :=
    parse_inside hfirst
  rw [Engine.render_eq, Siblings.renderSource_alone hparse rfl hc]
  rfl

/-- Components of which the last one uses none are rendered as far as they go, or as deep as is
allowed. -/
theorem render_above (h : w.DeclaredBy w.above calls) (settings : Settings) :
    (w.height ≤ settings.maxDepth.toNat →
      Engine.render ⟨.afterCalls calls, settings⟩ (usage (w.keyAt 0)) =
        .ok (printAll settings.layout (nested w.height))) ∧
    (settings.maxDepth.toNat < w.height →
      Engine.render ⟨.afterCalls calls, settings⟩ (usage (w.keyAt 0)) =
        .error (.tooDeep (w.keyAt settings.maxDepth.toNat) settings.maxDepth)) := by
  have hx := lookup_x calls
  have hleads : ∀ i, i + 1 < w.height →
      Leads (.afterCalls calls) (w.keyAt i) (some (w.keyAt (i + 1))) := fun i hi => by
    have hstep := h.leads w.usualName_above (Nat.lt_of_succ_lt hi)
    rwa [above, if_pos hi] at hstep
  obtain ⟨c, hc, -⟩ := h.found 0
  rw [render_first hc]
  constructor
  · intro hle
    obtain ⟨steps, hsteps⟩ : ∃ n, w.height = n + 1 := Nat.exists_eq_add_of_le' w.height_pos
    obtain ⟨levels, hlevels⟩ := Nat.exists_eq_add_of_le' hle
    have hlast : Leads (.afterCalls calls) (w.keyAt steps) none := by
      have hstep := h.leads w.usualName_above (show steps < w.height by omega)
      rwa [above, if_neg (by omega)] at hstep
    rw [hlevels, hsteps, ← Nat.add_assoc,
      expansion_ok hx (fun i hi => hleads i (by omega)) hlast hc]
    rfl
  · intro hlt
    rw [expansion_tooDeep hx (fun i hi => hleads i (by omega)) (fun i _ => h.found i) hc]
    rfl

/-- Components that go around are rendered as deep as is allowed, whatever that is. -/
theorem render_around (h : w.DeclaredBy w.around calls) (settings : Settings) :
    Engine.render ⟨.afterCalls calls, settings⟩ (usage (w.keyAt 0)) =
      .error (.tooDeep (w.keyAt (settings.maxDepth.toNat % w.height)) settings.maxDepth) := by
  have hx := lookup_x calls
  have hleads : ∀ i, Leads (.afterCalls calls) (w.keyAt i) (some (w.keyAt (i + 1))) := fun i => by
    have hstep := h.leads w.usualName_around (Nat.mod_lt i w.height_pos)
    rwa [around, keyAt_mod, keyAt_mod, ← keyAt_mod (i % w.height + 1), Nat.mod_add_mod,
      keyAt_mod] at hstep
  obtain ⟨c, hc, -⟩ := h.found 0
  rw [render_first hc, expansion_tooDeep hx (fun i _ => hleads i) (fun i _ => h.found i) hc,
    keyAt_mod]
  rfl

end Rendering

/-- **The limit on the depth is exact.**  Components of which each uses the next one, and the last
none, are rendered exactly if they are not more than the greatest depth.  If they are more, the
fault names the first that is too deep, with the depth that was allowed.  If the last one uses the
first again, there is a fault however deep components may nest, and the depth, counted around, says
which of them it names. -/
theorem depth_exact (w : Ladder) (calls : List Text) (settings : Settings) :
    (w.DeclaredBy w.above calls →
      (∀ out, Engine.render ⟨.afterCalls calls, settings⟩ (usage (w.keyAt 0)) = .ok out ↔
        w.height ≤ settings.maxDepth.toNat ∧
          out = (List.replicate w.height ['<', 'x', '>']).flatten ++
            (List.replicate w.height ['<', '/', 'x', '>']).flatten) ∧
      (settings.maxDepth.toNat < w.height →
        Engine.render ⟨.afterCalls calls, settings⟩ (usage (w.keyAt 0)) =
          .error (.tooDeep (w.keyAt settings.maxDepth.toNat) settings.maxDepth))) ∧
    (w.DeclaredBy w.around calls →
      Engine.render ⟨.afterCalls calls, settings⟩ (usage (w.keyAt 0)) =
        .error (.tooDeep (w.keyAt (settings.maxDepth.toNat % w.height)) settings.maxDepth)) := by
  refine ⟨fun h => ?_, fun h => render_around h settings⟩
  obtain ⟨hfits, hdeep⟩ := render_above h settings
  refine ⟨fun out => ?_, hdeep⟩
  have hprint : printAll settings.layout (nested w.height) =
      (List.replicate w.height ['<', 'x', '>']).flatten ++
        (List.replicate w.height ['<', '/', 'x', '>']).flatten := by
    rw [nested, Tree.printAll_nested (by decide), printAll, List.append_nil]
    rfl
  rw [← hprint]
  rcases Nat.lt_or_ge settings.maxDepth.toNat w.height with hlt | hle
  · rw [hdeep hlt]
    exact ⟨nofun, fun hout => absurd hout.1 (Nat.not_le.mpr hlt)⟩
  · rw [hfits hle, Except.ok.injEq]
    exact ⟨fun heq => ⟨hle, heq.symm⟩, fun hout => hout.2.symm⟩

/-- Two components, to be put on each other. -/
def ladderSample : Ladder where
  names := [['o', 'n', 'e'], ['t', 'w', 'o']]
  ne_nil := nofun
  nodup_keys := by decide
  usable := by
    intro name hname
    rcases List.mem_pair.mp hname with rfl | rfl
    · exact ⟨by decide, by decide, by decide⟩
    · exact ⟨by decide, by decide, by decide⟩

/-- The declarations of the sample, the last component without a usage in it. -/
def straightSample : List Text := ladderSample.sources ladderSample.above

/-- The declarations of the sample, the last component with a usage of the first. -/
def circularSample : List Text := ladderSample.sources ladderSample.around

theorem depth_exact_ladderSample :
    ladderSample.DeclaredBy ladderSample.above straightSample ∧
      ladderSample.DeclaredBy ladderSample.around circularSample ∧
      Engine.render ⟨.afterCalls straightSample, ⟨2, false⟩⟩ "<One/>".toList =
        .ok "<x><x></x></x>".toList ∧
      Engine.render ⟨.afterCalls straightSample, ⟨1, false⟩⟩ "<One/>".toList =
        .error (.tooDeep ['T', 'w', 'o'] 1) ∧
      Engine.render ⟨.afterCalls circularSample, ⟨5, true⟩⟩ "<One/>".toList =
        .error (.tooDeep ['T', 'w', 'o'] 5) := by
  have habove : ladderSample.DeclaredBy ladderSample.above straightSample :=
    declaredBy_sources ladderSample.usualName_above
  have haround : ladderSample.DeclaredBy ladderSample.around circularSample :=
    declaredBy_sources ladderSample.usualName_around
  obtain ⟨hfits, -⟩ := (depth_exact ladderSample straightSample ⟨2, false⟩).1 habove
  obtain ⟨-, hdeep⟩ := (depth_exact ladderSample straightSample ⟨1, false⟩).1 habove
  have hcircular := (depth_exact ladderSample circularSample ⟨5, true⟩).2 haround
  exact ⟨habove, haround, (hfits _).mpr ⟨by decide, by decide⟩, hdeep (by decide), hcircular⟩

end Ladder

end Stencil
