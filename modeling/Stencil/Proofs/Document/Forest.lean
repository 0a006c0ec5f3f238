/-
# Documents are forests

A document comes into being empty, as what is read from markup, or as the copy of a part of another
one; then it is edited.  `d.Made` says that `d` came about in this way, by any number of edits in
any order, also of nodes that were taken out before.

A link is written down twice in a document, at the parent and at the child, and an edit has to
change both.  Each edit does (`WellFormed.append`, `WellFormed.detach`, `WellFormed.replace`), and
so every document that can be made is well-formed (`wellFormed_of_made`).  What this means for its
links and for the walks along them is collected in `Forest`.
-/
import Stencil.Proofs.Document.Edits
import Stencil.Proofs.Document.Walks
import Stencil.Proofs.Markup.Tokens

namespace Stencil.Document

variable {d fragment : Document}

/-! ## 1. What one edit keeps -/

namespace WellFormed

theorem append (h : d.WellFormed) {p : NodeId} (hp : p < d.size) (kind : NodeKind) :
    (d.append p kind).WellFormed :=
  (grafted_append h hp kind).wellFormed h

theorem detach (h : d.WellFormed) (id : NodeId) : (d.detach id).WellFormed := by
  cases hp : d.parent? id with
  | none => rwa [Document.detach, hp]
  | some p => exact (grafted_detach h hp).wellFormed h

theorem replace (h : d.WellFormed) (id : NodeId) (fragment : Document) :
    (d.replace id fragment).1.WellFormed := by
  cases hp : d.parent? id with
  | none => rwa [Document.replace, hp]
  | some p =>
    obtain ⟨before, behind, hchildren⟩ := List.append_of_mem (h.mem_children_iff.mpr hp)
    obtain ⟨e, heq, hgrafted, -⟩ := replace_spec h hchildren fragment
    rw [heq]
    exact hgrafted.wellFormed h

end WellFormed

/-! ## 2. What any number of edits keeps -/

/-- The documents that can be made.  One that was read from markup has the numbers that its nodes
get when they are appended one after the other (`parseByAppending_eq`). -/
inductive Made : Document → Prop
  | empty : Made empty
  | parsed {d : Document} {source : Text} (hparse : parse source = .ok d) : Made d
  | extracted {d : Document} (h : Made d) {id : NodeId} (hid : id < d.size) : Made (d.extract id)
  | appended {d : Document} (h : Made d) {p : NodeId} (hp : p < d.size) (kind : NodeKind) :
    Made (d.append p kind)
  | detached {d : Document} (h : Made d) (id : NodeId) : Made (d.detach id)
  | replaced {d fragment : Document} (h : Made d) (id : NodeId) (hfragment : Made fragment) :
    Made (d.replace id fragment).1
  | edited {d : Document} (h : Made d) (id : NodeId) (g : Element → Element) :
    Made (d.modifyElement id g)

/-- **Every document that can be made is well-formed.** -/
theorem wellFormed_of_made (h : d.Made) : d.WellFormed := by
  induction h with
  | empty => exact wellFormed_empty
  | parsed hparse =>
    obtain ⟨ts, -, rfl⟩ := exists_of_map_eq_ok hparse
    exact wellFormed_ofTrees ts
  | extracted => exact wellFormed_ofTrees _
  | appended _ hp kind ih => exact ih.append hp kind
  | detached _ id ih => exact ih.detach id
  | replaced _ id _ ih => exact ih.replace id _
  | edited _ id g ih => exact ih.modifyElement id g

/-! ## 3. Forests -/

/-- The links of the document are those of a forest whose trees grow from smaller to greater
numbers, and every walk along them ends. -/
structure Forest (d : Document) : Prop extends d.WellFormed where
  /-- Children are nodes of the table. -/
  lt_size : ∀ {p c : Nat}, c ∈ d.children p → c < d.size
  /-- A child stands once among its siblings, and nowhere else. -/
  once : ∀ {p c : NodeId}, c ∈ d.children p →
    (d.children p).count c = 1 ∧ ∀ q : NodeId, c ∈ d.children q → q = p
  /-- The way up from a parent does not lead to its child. -/
  acyclic : ∀ {p c : NodeId}, d.parent? c = some p → ¬ d.Below c p
  /-- No walk up from parent to parent, and none down from child to child, goes on for ever. -/
  ends : ∀ walk : Nat → Nat, (∃ n, d.parent? (walk n) ≠ some (walk (n + 1))) ∧
    ∃ n, walk (n + 1) ∉ d.children (walk n)
  /-- The walk up has come to its end before its bound. -/
  ends_up : ∀ (id : NodeId) {n : Nat}, d.size ≤ n → d.parent? (d.ancestor n id) = none
  /-- The walk down has come to its end before its bound. -/
  ends_down : ∀ (id : NodeId) {n : Nat}, d.size ≤ n → d.preorder n [id] = d.descendants id
  /-- The tree at a node is not cut off at its bound. -/
  tree_eq : ∀ id : NodeId, d.tree id = .node (d.kind id) ((d.children id).map d.tree)

/-- **Every document that can be made is a forest.** -/
theorem forest_of_made (h : d.Made) : d.Forest := by
  have hd := wellFormed_of_made h
  exact {
    toWellFormed := hd
    lt_size := hd.lt_size_of_mem_children
    once := fun {p c} hc => by
      refine ⟨List.count_eq_one_of_mem (hd.nodup_children p) hc, fun q hq => ?_⟩
      exact hd.parent_unique hq hc
    acyclic := fun hp => not_below_of_mem_children hd (hd.mem_children_iff.mpr hp)
    ends := fun walk => ⟨exists_parent?_ne hd walk, exists_not_mem_children hd walk⟩
    ends_up := parent?_ancestor hd
    ends_down := preorder_eq_descendants hd
    tree_eq := tree_eq hd }

/-- What `<b>x</b><i/>` writes. -/
def readSample : Document :=
  ofTrees [.node (.element { name := ['b'] }) [.leaf (.text ['x'])],
    .leaf (.element { name := ['i'], selfClosing := true })]

/-- The first element taken out, and then given another child. -/
def detachedSample : Document := (readSample.detach 1).append 1 (.text ['y'])

/-- A copy of the element that was taken out in the place of the second one, under another name. -/
def editedSample : Document :=
  (detachedSample.replace 3 (detachedSample.extract 1)).1.modifyElement 5
    fun e => { e with name := ['u'] }

theorem forest_editedSample : editedSample.Made ∧
    (List.range editedSample.size).map editedSample.children =
      [[5], [2, 4], [], [], [], [6, 7], [], []] ∧
    editedSample.Forest := by
  have hparse : (parse "<b>x</b><i/>".toList).toOption = some readSample := by decide +kernel
  have hread := Made.parsed (eq_ok_of_toOption hparse)
  have hdetached : detachedSample.Made := (hread.detached 1).appended (by decide) _
  have hcopied : editedSample.Made :=
    (hdetached.replaced 3 (hdetached.extracted (by decide))).edited 5 _
  exact ⟨hcopied, by decide +kernel, forest_of_made hcopied⟩

end Stencil.Document
