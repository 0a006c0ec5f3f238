/-
# The shape of a document

A document is a table, and nothing in the type of a table says that the nodes in it form a tree.
That is what `WellFormed` says: a node is in the list of children of another exactly if it has that
other for its parent, no list of children names a node twice, and parents have smaller numbers than
their children.

Two consequences carry all that is said about documents elsewhere.

* The tree at a node is the node with the trees at its children (`tree_eq`).  By definition the tree
  is cut off at a depth; in a well-formed document the cut is never reached.
* The tree at a node depends only on the nodes below it (`tree_congr`), and nothing is below two
  siblings at once (`eq_of_below_siblings`).  So a change below one child of a node leaves the trees
  at its other children alone.
-/
import Mathlib
import Stencil.Document.Walk

namespace Stencil.Document

variable {d d' : Document}

/-! ## 1. Nodes of the table -/

theorem node?_eq_none_iff {id : NodeId} : d.node? id = none ↔ d.size ≤ id := by
  simp [node?, size]

theorem node?_isSome_iff {id : NodeId} : (d.node? id).isSome ↔ id < d.size := by
  simp [node?, size]

/-- A number that is in the table has an entry. -/
theorem exists_node_of_lt {id : NodeId} (h : id < d.size) : ∃ n, d.node? id = some n :=
  Option.isSome_iff_exists.mp (node?_isSome_iff.mpr h)

/-- Documents with the same entries are the same. -/
theorem ext_node? {e : Document} (h : ∀ x, d.node? x = e.node? x) : d = e := by
  obtain ⟨nodes⟩ := d
  obtain ⟨nodes'⟩ := e
  rw [Document.mk.injEq]
  exact Array.ext_getElem? h

theorem lt_size_of_node? {id : NodeId} {n : Node} (h : d.node? id = some n) : id < d.size :=
  node?_isSome_iff.mp (h ▸ rfl)

theorem kind_of_node? {id : NodeId} {n : Node} (h : d.node? id = some n) : d.kind id = n.kind := by
  simp [kind, h]

theorem parent?_of_node? {id : NodeId} {n : Node} (h : d.node? id = some n) :
    d.parent? id = n.parent := by
  simp [parent?, h]

theorem children_of_node? {id : NodeId} {n : Node} (h : d.node? id = some n) :
    d.children id = n.children := by
  simp [children, h]

theorem lt_size_of_parent? {id p : NodeId} (h : d.parent? id = some p) : id < d.size := by
  cases hn : d.node? id with
  | none => simp [parent?, hn] at h
  | some n => exact lt_size_of_node? hn

theorem children_eq_nil_of_size_le {id : NodeId} (h : d.size ≤ id) : d.children id = [] := by
  simp [children, node?_eq_none_iff.mpr h]

/-! ## 2. Well-formed documents -/

/-- The table is a forest, and node 0 is the root of a tree in it. -/
structure WellFormed (d : Document) : Prop where
  /-- There is a root. -/
  size_pos : 0 < d.size
  /-- Nothing is above the root. -/
  parent?_root : d.parent? root = none
  /-- The two sides of each link agree. -/
  mem_children_iff : ∀ {p c : NodeId}, c ∈ d.children p ↔ d.parent? c = some p
  /-- No node stands twice among its siblings. -/
  nodup_children : ∀ p : NodeId, (d.children p).Nodup
  /-- Parents come before their children. -/
  parent_lt : ∀ {p c : Nat}, d.parent? c = some p → p < c

namespace WellFormed

theorem lt_of_mem_children (h : d.WellFormed) {p c : Nat} (hc : c ∈ d.children p) : p < c :=
  h.parent_lt (h.mem_children_iff.mp hc)

theorem lt_size_of_mem_children (h : d.WellFormed) {p c : Nat} (hc : c ∈ d.children p) :
    c < d.size :=
  lt_size_of_parent? (h.mem_children_iff.mp hc)

/-- A node has one parent only. -/
theorem parent_unique (h : d.WellFormed) {p q c : NodeId} (hp : c ∈ d.children p)
    (hq : c ∈ d.children q) : p = q := by
  have hp' := h.mem_children_iff.mp hp
  rw [h.mem_children_iff.mp hq] at hp'
  exact (Option.some.inj hp').symm

end WellFormed

/-! ## 3. What is below a node -/

/-- `d.Below a x`: the way up from `x` leads through `a`, or starts there. -/
inductive Below (d : Document) (a : NodeId) : NodeId → Prop
  | refl : Below d a a
  | step {x y : NodeId} : d.parent? x = some y → Below d a y → Below d a x

namespace Below

variable {a b x : NodeId}

theorem trans (hab : d.Below a b) (hbx : d.Below b x) : d.Below a x := by
  induction hbx with
  | refl => exact hab
  | step hp _ ih => exact .step hp ih

/-- A child is below whatever its parent is below. -/
theorem child (h : d.WellFormed) {p c : NodeId} (hp : d.Below a p) (hc : c ∈ d.children p) :
    d.Below a c :=
  .step (h.mem_children_iff.mp hc) hp

theorem le (h : d.WellFormed) {a x : Nat} (hx : d.Below a x) : a ≤ x := by
  induction hx with
  | refl => exact Nat.le_refl _
  | step hp _ ih => exact Nat.le_of_lt (Nat.lt_of_le_of_lt ih (h.parent_lt hp))

/-- Two nodes above the same node are above one another. -/
theorem total (ha : d.Below a x) (hb : d.Below b x) : d.Below a b ∨ d.Below b a := by
  induction ha with
  | refl => exact Or.inr hb
  | step hp ha ih =>
    cases hb with
    | refl => exact Or.inl (.step hp ha)
    | step hp' hb' =>
      rw [hp] at hp'
      obtain rfl := Option.some.inj hp'
      exact ih hb'

/-- A way up that starts below `a`, and not at `a`, passes through the parent of its start. -/
theorem parent {p : NodeId} (hx : d.Below a x) (hne : x ≠ a) (hp : d.parent? x = some p) :
    d.Below a p := by
  cases hx with
  | refl => exact absurd rfl hne
  | step hp' hy =>
    rw [hp] at hp'
    obtain rfl := Option.some.inj hp'
    exact hy

end Below

/-- **Nothing is below two siblings.** -/
theorem eq_of_below_siblings (h : d.WellFormed) {p a b x : NodeId} (ha : a ∈ d.children p)
    (hb : b ∈ d.children p) (hax : d.Below a x) (hbx : d.Below b x) : a = b := by
  have key : ∀ {a b : NodeId}, a ∈ d.children p → b ∈ d.children p → d.Below a b → a = b := by
    intro a b ha hb hab
    by_contra hne
    have hap := hab.parent (Ne.symm hne) (h.mem_children_iff.mp hb)
    have hle := hap.le h
    have hlt := h.lt_of_mem_children ha
    exact absurd hlt (Nat.not_lt.mpr hle)
  rcases hax.total hbx with hab | hba
  · exact key ha hb hab
  · exact (key hb ha hba).symm

/-- A node is not below its children. -/
theorem not_below_of_mem_children (h : d.WellFormed) {p c : NodeId} (hc : c ∈ d.children p) :
    ¬ d.Below c p := by
  intro hb
  have hle := hb.le h
  have hlt := h.lt_of_mem_children hc
  exact absurd hlt (Nat.not_lt.mpr hle)

/-! ## 4. The tree at a node -/

/-- Beyond the size of the table, the depth to which a tree is followed does not matter. -/
theorem treeTo_eq_of_le (h : d.WellFormed) :
    ∀ (m n id : Nat), d.size ≤ id + m → d.size ≤ id + n → d.treeTo m id = d.treeTo n id
  | 0, 0, _, _, _ => rfl
  | 0, n + 1, id, hm, _ => by
    simp [treeTo, Tree.leaf, children_eq_nil_of_size_le (show d.size ≤ id by omega)]
  | m + 1, 0, id, _, hn => by
    simp [treeTo, Tree.leaf, children_eq_nil_of_size_le (show d.size ≤ id by omega)]
  | m + 1, n + 1, id, hm, hn => by
    simp only [treeTo, Tree.node.injEq, true_and]
    refine List.map_congr_left fun c hc => ?_
    have hlt := h.lt_of_mem_children hc
    exact treeTo_eq_of_le h m n c (by omega) (by omega)

/-- **The tree at a node is the node with the trees at its children.** -/
theorem tree_eq (h : d.WellFormed) (id : NodeId) :
    d.tree id = .node (d.kind id) ((d.children id).map d.tree) := by
  have hstep : d.tree id = d.treeTo (d.size + 1) id :=
    treeTo_eq_of_le h _ _ id (by omega) (by omega)
  rw [hstep]
  rfl

@[simp] theorem kind_tree (d : Document) (id : NodeId) : (d.tree id).kind = d.kind id := by
  unfold tree
  cases d.size <;> rfl

theorem children_tree (h : d.WellFormed) (id : NodeId) :
    (d.tree id).children = (d.children id).map d.tree := by
  rw [tree_eq h]
  rfl

theorem tree_root (h : d.WellFormed) : d.tree root = .node (d.kind root) d.trees := tree_eq h root

/-- **The tree at a node depends only on what is below it.** -/
theorem tree_congr (h : d.WellFormed) {id : NodeId} (hsize : d.size ≤ d'.size)
    (hsame : ∀ x, d.Below id x → d'.kind x = d.kind x ∧ d'.children x = d.children x) :
    d'.tree id = d.tree id := by
  have key : ∀ (n : Nat) (x : NodeId), d.Below id x → d'.treeTo n x = d.treeTo n x := by
    intro n
    induction n with
    | zero => intro x hx; simp [treeTo, (hsame x hx).1]
    | succ n ih =>
      intro x hx
      simp only [treeTo, (hsame x hx).1, (hsame x hx).2, Tree.node.injEq, true_and]
      exact List.map_congr_left fun c hc => ih c (hx.child h hc)
  calc d'.tree id = d.treeTo d'.size id := key _ id .refl
    _ = d.tree id := treeTo_eq_of_le h _ _ id (by omega) (by omega)

end Stencil.Document
