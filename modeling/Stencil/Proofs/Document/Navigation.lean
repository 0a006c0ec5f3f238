/-
# Listings of what is below a node

Listing what is below a node can be said as a recursion on the tree that stands there: first the
node, then what is listed of its children, one after the other.  A document is a table, so this is
no definition; it is an equation, and there is exactly one solution of it (`listing_iff`).

The listing is made by a walk instead, which keeps the nodes that are still to be visited.
`descendants` keeps them on a list, next node first.  `walkStack` is the same with a stack: the next
node is the last one on it, and a visit puts the children on with the last child first
(`walkStack_eq`).  Either way what is listed is the solution of the equation (`descendants_eq`), and
it has every node whose way up leads through the node where the walk began, and no other
(`mem_descendants_iff`).

All of this is said of every well-formed document, in whatever order its nodes were made, taken out
and put in.  In a document that was just read from markup the numbers themselves are in order
(`descendants_ofTrees`).  These are the numbers that nodes get when they are appended one after the
other while the markup is read (`parseByAppending_eq`), so a node is made before those below it, and
left before right.
-/
import Stencil.Proofs.Document.Appending

namespace Stencil.Document

open Stencil.Tree

variable {d : Document}

/-! ## 1. The recursion -/

/-- **From the children to the parent.**  What holds of a node as soon as it holds of its children
holds of all nodes: numbers grow on the way down, and beyond the table there are no children. -/
theorem WellFormed.induct (hd : d.WellFormed) {P : NodeId → Prop}
    (step : ∀ id, (∀ c ∈ d.children id, P c) → P id) (id : NodeId) : P id := by
  have hall : ∀ n id : Nat, d.size ≤ id + n → P id := by
    intro n
    induction n with
    | zero =>
      intro id hsize
      have hnil : d.children id = [] := children_eq_nil_of_size_le hsize
      refine step id fun c hc => ?_
      rw [hnil] at hc
      exact absurd hc List.not_mem_nil
    | succ n ih =>
      intro id hsize
      refine step id fun c hc => ih c ?_
      have hlt := hd.lt_of_mem_children hc
      omega
  exact hall d.size id (Nat.le_add_left _ _)

/-- The first visit of a walk from one node. -/
theorem descendants_eq_cons (hd : d.WellFormed) {n : Nat} {id : NodeId}
    (hn : (d.tree id).size ≤ n + 1) : d.descendants id = id :: d.preorder n (d.children id) := by
  have henough : sizeAll ([id].map d.tree) ≤ n + 1 := by simpa using hn
  have hleast : sizeAll ([id].map d.tree) ≤ (d.tree id).size := by simp
  have hwalk : d.descendants id = d.preorder (n + 1) [id] := by
    rw [descendants, preorder_eq_of_le hd hleast (size_tree_le hd id),
      preorder_eq_of_le hd hleast hn]
  rw [hwalk, preorder, List.append_nil]

/-- **A walk lists what is below each of the nodes that it begins with**, one node after the other,
if there are enough visits. -/
theorem preorder_eq_flatMap (hd : d.WellFormed) {n : Nat} {ids : List NodeId}
    (hn : sizeAll (ids.map d.tree) ≤ n) : d.preorder n ids = ids.flatMap d.descendants := by
  induction n generalizing ids with
  | zero =>
    cases ids with
    | nil => rfl
    | cons id rest =>
      have hpos := (d.tree id).size_pos
      rw [List.map_cons, sizeAll_cons] at hn
      omega
  | succ n ih =>
    cases ids with
    | nil => rfl
    | cons id rest =>
      have hsize : (d.tree id).size = sizeAll ((d.children id).map d.tree) + 1 := by
        rw [Document.tree_eq hd id, size_node]
      rw [List.map_cons, sizeAll_cons, hsize] at hn
      have hhere : sizeAll ((d.children id).map d.tree) ≤ n := by omega
      have hall : sizeAll ((d.children id ++ rest).map d.tree) ≤ n := by
        rw [List.map_append, sizeAll_append]
        omega
      rw [preorder, ih hall, List.flatMap_append, List.flatMap_cons,
        descendants_eq_cons hd (by omega : (d.tree id).size ≤ n + 1), ih hhere, List.cons_append]

/-- **What is below a node is the node, and what is below its children**, in order. -/
theorem descendants_eq (hd : d.WellFormed) (id : NodeId) :
    d.descendants id = id :: (d.children id).flatMap d.descendants := by
  have hsize : (d.tree id).size = sizeAll ((d.children id).map d.tree) + 1 := by
    rw [Document.tree_eq hd id, size_node]
  rw [descendants_eq_cons hd (Nat.le_of_eq hsize), preorder_eq_flatMap hd (Nat.le_refl _)]

/-- **The recursion has one solution**: what is below the nodes. -/
theorem listing_iff (hd : d.WellFormed) {list : NodeId → List NodeId} :
    (∀ id, list id = id :: (d.children id).flatMap list) ↔ list = d.descendants := by
  constructor
  · intro hlist
    funext id
    induction id using hd.induct with
    | step id ih => rw [hlist, descendants_eq hd, List.flatMap_congr ih]
  · rintro rfl
    exact descendants_eq hd

/-! ## 2. The stack -/

/-- Visits nodes for a number of visits.  The nodes to be visited are on a stack whose top is its
last entry: a visit takes it off, puts it behind what is listed, and puts its children on, the last
child first. -/
def walkStack (d : Document) : (visits : Nat) → (stack listed : List NodeId) → List NodeId
  | 0, _, listed => listed
  | visits + 1, stack, listed =>
    match stack.getLast? with
    | none => listed
    | some id => d.walkStack visits (stack.dropLast ++ (d.children id).reverse) (listed ++ [id])

/-- **A stack is the list of the nodes to be visited, read from its top.** -/
theorem walkStack_eq (d : Document) (n : Nat) (stack listed : List NodeId) :
    d.walkStack n stack listed = listed ++ d.preorder n stack.reverse := by
  induction n generalizing stack listed with
  | zero => rw [walkStack, preorder, List.append_nil]
  | succ n ih =>
    rcases List.eq_nil_or_concat stack with rfl | ⟨below, id, rfl⟩
    · rw [walkStack, List.reverse_nil, preorder, List.append_nil]
      rfl
    · have hnext : (below ++ (d.children id).reverse).reverse = d.children id ++ below.reverse := by
        rw [List.reverse_append, List.reverse_reverse]
      rw [List.concat_eq_append, walkStack, List.getLast?_concat]
      dsimp only
      rw [List.dropLast_concat, ih, hnext, List.reverse_concat, preorder, List.append_assoc,
        List.singleton_append]

/-! ## 3. What is listed -/

/-- What is below a node is the node itself or below one of its children. -/
theorem Below.exists_child (hd : d.WellFormed) {a x : NodeId} (h : d.Below a x) (hne : x ≠ a) :
    ∃ c ∈ d.children a, d.Below c x := by
  induction h with
  | refl => exact absurd rfl hne
  | @step x y hp hy ih =>
    by_cases hya : y = a
    · subst hya
      exact ⟨x, hd.mem_children_iff.mpr hp, .refl⟩
    · obtain ⟨c, hc, hcy⟩ := ih hya
      exact ⟨c, hc, .step hp hcy⟩

/-- **Listed below a node are the nodes whose way up leads through it.** -/
theorem mem_descendants_iff (hd : d.WellFormed) {id x : NodeId} :
    x ∈ d.descendants id ↔ d.Below id x := by
  constructor
  · intro hx
    obtain ⟨a, ha, hax⟩ := below_of_mem_preorder hd hx
    obtain rfl := List.mem_singleton.mp ha
    exact hax
  · intro hx
    -- the way up is followed from its upper end, where the listing begins
    induction id using hd.induct with
    | step id ih =>
      rw [descendants_eq hd]
      by_cases hne : x = id
      · exact hne ▸ List.mem_cons_self
      · obtain ⟨c, hc, hcx⟩ := hx.exists_child hd hne
        exact List.mem_cons_of_mem id (List.mem_flatMap.mpr ⟨c, hc, ih c hc hcx⟩)

/-- **In a document that is made of trees the nodes are numbered as they are listed.** -/
theorem descendants_ofTrees (ts : List Tree) :
    (ofTrees ts).descendants root = List.range (ofTrees ts).size := by
  have hd := wellFormed_ofTrees ts
  have hholds : (ofTrees ts).HoldsAll root 1 ts := (grafted_ofTrees ts).holdsAll
  calc (ofTrees ts).descendants root
      = root :: (topIds 1 ts).flatMap (ofTrees ts).descendants := descendants_eq hd root
    _ = root :: List.range' 1 (sizeAll ts) := by rw [hholds.flatMap_descendants hd]
    _ = List.range (ofTrees ts).size := by
      rw [size_ofTrees, List.range_eq_range', Nat.add_comm, List.range'_succ, root]

/-! ## 4. Navigation -/

/-- The walks through the document agree with the tree that its links make. -/
structure Navigable (d : Document) : Prop where
  /-- A walk with a stack ends, and lists what a walk with a list lists. -/
  stack_eq : ∀ (id : NodeId) (n : Nat), d.size ≤ n → d.walkStack n [id] [] = d.descendants id
  /-- What is listed is the one solution of the recursion on the tree. -/
  listing_iff : ∀ list : NodeId → List NodeId,
    (∀ id, list id = id :: (d.children id).flatMap list) ↔ list = d.descendants
  nodup : ∀ id : NodeId, (d.descendants id).Nodup
  /-- The way up from what is listed leads through the node where the listing began. -/
  mem_iff : ∀ id x : NodeId, x ∈ d.descendants id ↔ d.Below id x
  /-- The way up ends at the root exactly from what is listed of the root. -/
  isConnected_iff : ∀ x : NodeId, d.isConnected x = true ↔ x ∈ d.descendants root

theorem WellFormed.navigable (hd : d.WellFormed) : d.Navigable where
  stack_eq id n hn := by
    rw [walkStack_eq, List.nil_append, List.reverse_singleton, preorder_eq_descendants hd id hn]
  listing_iff _ := Document.listing_iff hd
  nodup _ := nodup_preorder hd (List.pairwise_singleton _ _)
  mem_iff _ _ := mem_descendants_iff hd
  isConnected_iff _ := (Document.isConnected_iff hd).trans (mem_descendants_iff hd).symm

/-- **Navigation agrees with the tree** in every well-formed document, and in one that was read from
markup, each node appended when its token is read, the nodes are listed as 0, 1, and so on. -/
theorem navigation_exact :
    (∀ d : Document, d.WellFormed → d.Navigable) ∧
      ∀ source : Text, parseByAppending source = parse source ∧
        ∀ d : Document, parse source = .ok d → d.descendants root = List.range d.size := by
  constructor
  · intro d hd
    exact hd.navigable
  · intro source
    refine ⟨parseByAppending_eq source, ?_⟩
    intro d hparse
    obtain ⟨ts, -, rfl⟩ := exists_of_map_eq_ok hparse
    exact descendants_ofTrees ts

/-- The walks through a document with a part that was taken out and one that was put in, and
through the one that it was made of. -/
theorem navigation_editedSample :
    editedSample.WellFormed ∧ editedSample.Navigable ∧
    editedSample.descendants root = [0, 5, 6, 7] ∧ editedSample.descendants 1 = [1, 2, 4] ∧
    editedSample.isConnected 4 = false ∧
    parse "<b>x</b><i/>".toList = .ok readSample ∧
    readSample.descendants root = [0, 1, 2, 3] := by
  have hread : readSample.WellFormed := wellFormed_ofTrees _
  have hdetached : detachedSample.WellFormed := (hread.detach 1).append (by decide) _
  have hd : editedSample.WellFormed := (hdetached.replace 3 _).modifyElement 5 _
  have hnavigable := navigation_exact.1 _ hd
  have hparse : parse "<b>x</b><i/>".toList = .ok readSample := by decide +kernel
  have hconnected : editedSample.isConnected 4 = false := by
    rw [Bool.eq_false_iff, ne_eq, hnavigable.isConnected_iff]
    decide +kernel
  exact ⟨hd, hnavigable, by decide +kernel, by decide +kernel, hconnected, hparse,
    (navigation_exact.2 _).2 _ hparse⟩

end Stencil.Document
