/-
# Properties of every node

`t.Each Q` says that each node of the tree `t`, with the trees under it, has the property `Q`.  What
can be said node by node of the trees that are read from markup follows from what can be said of the
tokens: if each token grants the property to the node it makes, a step of building keeps it
(`Token.Builds.each`), and so it holds everywhere in the trees that are read (`eachAll_of_parse`).

One such property is the shape of the trees: no node is a fragment, and only elements with an end
tag have anything under them (`shaped_of_parse`).
-/
import Stencil.Proofs.Markup.Building
import Stencil.Proofs.Markup.Tokens

namespace Stencil

/-! ## 1. Trees -/

namespace Tree

mutual

/-- Each node of the tree has the property, with the trees that are under it. -/
def Each (Q : NodeKind → List Tree → Prop) : Tree → Prop
  | node kind children => Q kind children ∧ EachAll Q children

/-- Each node of the trees on a list has the property. -/
def EachAll (Q : NodeKind → List Tree → Prop) : List Tree → Prop
  | [] => True
  | t :: rest => t.Each Q ∧ EachAll Q rest

end

variable {Q : NodeKind → List Tree → Prop}

theorem each_leaf {kind : NodeKind} (h : Q kind []) : (leaf kind).Each Q := ⟨h, trivial⟩

theorem eachAll_iff {ts : List Tree} : EachAll Q ts ↔ ∀ t ∈ ts, t.Each Q := by
  induction ts with
  | nil => exact ⟨fun _ t ht => absurd ht List.not_mem_nil, fun _ => trivial⟩
  | cons t rest ih =>
    rw [EachAll, ih]
    constructor
    · rintro ⟨ht, hrest⟩ s hs
      rcases List.mem_cons.mp hs with rfl | hs
      · exact ht
      · exact hrest s hs
    · intro h
      exact ⟨h t List.mem_cons_self, fun s hs => h s (List.mem_cons_of_mem t hs)⟩

theorem eachAll_append {ss ts : List Tree} :
    EachAll Q (ss ++ ts) ↔ EachAll Q ss ∧ EachAll Q ts := by
  simp only [eachAll_iff, List.mem_append]
  constructor
  · intro h
    exact ⟨fun t ht => h t (Or.inl ht), fun t ht => h t (Or.inr ht)⟩
  · rintro ⟨hss, hts⟩ t (ht | ht)
    · exact hss t ht
    · exact hts t ht

theorem eachAll_reverse {ts : List Tree} : EachAll Q ts.reverse ↔ EachAll Q ts := by
  simp only [eachAll_iff, List.mem_reverse]

end Tree

/-! ## 2. Trees that are built of tokens -/

namespace Token

open Stencil.Tree

/-- The token grants the property to the node that it makes.  An element that stays open is granted
it whatever comes to stand under it. -/
def Grants (Q : NodeKind → List Tree → Prop) : Token → Prop
  | text t => Q (.text t) []
  | doctype t => Q (.doctype t) []
  | empty e => Q (.element e) []
  | opening e =>
    (e.isVoid = true → Q (.element e) []) ∧
      (e.isVoid = false → ∀ children, EachAll Q children → Q (.element e) children)
  | closing _ => True
  | dropped => True

/-- The open elements will have the property, and the trees beside them have it. -/
def OpenGrants (Q : NodeKind → List Tree → Prop) (opened : List OpenElement) : Prop :=
  ∀ o ∈ opened, (∀ children, EachAll Q children → Q (.element o.element) children) ∧
    EachAll Q o.before

/-- **One step keeps the property**: what was built before has it, and so have the nodes to come. -/
theorem Builds.each {Q : NodeKind → List Tree → Prop} {p : Nat} {token : Token}
    {opened opened' : List OpenElement} {done done' : List Tree}
    (h : token.Builds p opened done opened' done') (htoken : token.Grants Q)
    (hstate : OpenGrants Q opened ∧ EachAll Q done) : OpenGrants Q opened' ∧ EachAll Q done' := by
  obtain ⟨hopened, hdone⟩ := hstate
  cases h with
  | text => exact ⟨hopened, each_leaf htoken, hdone⟩
  | doctype => exact ⟨hopened, each_leaf htoken, hdone⟩
  | dropped => exact ⟨hopened, hdone⟩
  | empty => exact ⟨hopened, each_leaf htoken, hdone⟩
  | bare hvoid => exact ⟨hopened, each_leaf (htoken.1 hvoid), hdone⟩
  | opening hvoid => exact ⟨List.forall_mem_cons.mpr ⟨⟨htoken.2 hvoid, hdone⟩, hopened⟩, trivial⟩
  | voidEnd => exact ⟨hopened, hdone⟩
  | closing =>
    obtain ⟨⟨helement, hbefore⟩, houter⟩ := List.forall_mem_cons.mp hopened
    have hchildren := eachAll_reverse.mpr hdone
    exact ⟨houter, ⟨helement _ hchildren, hchildren⟩, hbefore⟩

end Token

/-! ## 3. Trees that are read -/

namespace Tree

/-- **What all tokens of a source grant holds of every node that is read from it.** -/
theorem eachAll_of_parse {Q : NodeKind → List Tree → Prop} {source : Text} {ts : List Tree}
    (h : Tree.parse source = .ok ts) (htokens : ∀ x ∈ (Token.scan source).items, x.2.Grants Q) :
    EachAll Q ts := by
  have hrun := Token.nest_invariant
    (fun opened done => Token.OpenGrants Q opened ∧ EachAll Q done) h
    (fun x hx _ _ _ _ hbuilds => hbuilds.each (htokens x hx))
    ⟨fun _ ho => absurd ho List.not_mem_nil, trivial⟩
  exact eachAll_reverse.mp hrun.2

/-- The node is as markup makes it: no fragment, and only an element that has an end tag has
something under it. -/
structure Shaped (kind : NodeKind) (children : List Tree) : Prop where
  not_fragment : kind ≠ .fragment
  paired_of_children : children ≠ [] →
    ∃ e, kind = .element e ∧ e.isVoid = false ∧ e.selfClosing = false

theorem shaped_leaf {kind : NodeKind} (h : kind ≠ .fragment) : Shaped kind [] :=
  ⟨h, fun hne => absurd rfl hne⟩

/-- Nothing stands under what is no element. -/
theorem Shaped.children_eq_nil {kind : NodeKind} {children : List Tree}
    (h : Shaped kind children) (hnone : kind.element? = none) : children = [] := by
  cases children with
  | nil => rfl
  | cons t rest =>
    obtain ⟨e, rfl, -⟩ := h.paired_of_children (List.cons_ne_nil t rest)
    exact absurd hnone nofun

theorem shaped_of_parse {source : Text} {ts : List Tree} (h : Tree.parse source = .ok ts) :
    EachAll Shaped ts := by
  refine eachAll_of_parse h fun x hx => ?_
  obtain ⟨p, l, hmeans⟩ := Token.exists_of_mem_scan hx
  cases hx2 : x.2 with
  | opening e =>
    rw [hx2] at hmeans
    exact ⟨fun _ => shaped_leaf nofun,
      fun hvoid children _ =>
        ⟨nofun, fun _ => ⟨e, rfl, hvoid, Token.selfClosing_of_opening hmeans⟩⟩⟩
  | closing name => trivial
  | dropped => trivial
  | text t => exact shaped_leaf nofun
  | doctype t => exact shaped_leaf nofun
  | empty e => exact shaped_leaf nofun

end Tree

end Stencil
