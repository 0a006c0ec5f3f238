/-
# Walks through a document

There are three walks through a document: up from a node to its parent, its parent's parent and so
on (`ancestor`), and down from a node to all below it, either to list it (`descendants`) or to keep
it in its place (`tree`).  By definition each of them is cut off after as many steps as the table
has nodes.  In a well-formed document the cut is never what ends a walk.

* The walk up ends at a node without a parent (`parent?_ancestor`), since parents have smaller
  numbers than their children.
* The walk down lists what is below the node in the order of the tree that stands there
  (`map_tree_preorder`), and lists no node twice (`nodup_preorder`), so that a tree has no more
  nodes than the table (`size_tree_le`).

So a node is connected if and only if it is below the root (`isConnected_iff`).
-/
import Stencil.Proofs.Document.Numbering

namespace Stencil

/-! ## 1. The trees in a tree -/

namespace Tree

mutual

/-- The tree and all trees further down in it, each before those in it, left before right. -/
def subtrees : Tree → List Tree
  | node kind children => node kind children :: subtreesAll children

/-- The trees on a list and all trees further down in them. -/
def subtreesAll : List Tree → List Tree
  | [] => []
  | t :: rest => subtrees t ++ subtreesAll rest

end

theorem subtrees_node (kind : NodeKind) (children : List Tree) :
    (node kind children).subtrees = node kind children :: subtreesAll children := by
  rw [subtrees]

@[simp] theorem subtreesAll_nil : subtreesAll [] = [] := by
  rw [subtreesAll]

theorem subtreesAll_cons (t : Tree) (rest : List Tree) :
    subtreesAll (t :: rest) = t.subtrees ++ subtreesAll rest := by
  rw [subtreesAll]

theorem subtreesAll_append (ss ts : List Tree) :
    subtreesAll (ss ++ ts) = subtreesAll ss ++ subtreesAll ts := by
  induction ss with
  | nil => rfl
  | cons s ss ih => rw [List.cons_append, subtreesAll_cons, subtreesAll_cons, ih, List.append_assoc]

mutual

/-- There is a tree for each node. -/
theorem length_subtrees : ∀ t : Tree, t.subtrees.length = t.size
  | node kind children => by
    rw [subtrees_node, List.length_cons, length_subtreesAll children, size_node]

theorem length_subtreesAll : ∀ ts : List Tree, (subtreesAll ts).length = sizeAll ts
  | [] => rfl
  | t :: rest => by
    rw [subtreesAll_cons, List.length_append, length_subtrees t, length_subtreesAll rest,
      sizeAll_cons]

end

theorem sizeAll_append (ss ts : List Tree) : sizeAll (ss ++ ts) = sizeAll ss + sizeAll ts := by
  rw [← length_subtreesAll, subtreesAll_append, List.length_append, length_subtreesAll,
    length_subtreesAll]

end Tree

namespace Document

open Stencil.Tree

variable {d : Document}

/-! ## 2. Up -/

theorem ancestor_of_parent?_eq_none {id : NodeId} (h : d.parent? id = none) (n : Nat) :
    d.ancestor n id = id := by
  cases n with
  | zero => rfl
  | succ n => rw [ancestor, h]

theorem ancestor_of_parent? {id p : NodeId} (h : d.parent? id = some p) (n : Nat) :
    d.ancestor (n + 1) id = d.ancestor n p := by
  rw [ancestor, h]

/-- The node where a walk up ends is above the one where it began. -/
theorem below_ancestor (d : Document) (n : Nat) (id : NodeId) : d.Below (d.ancestor n id) id := by
  induction n generalizing id with
  | zero => exact .refl
  | succ n ih =>
    cases hp : d.parent? id with
    | none => rw [ancestor_of_parent?_eq_none hp]; exact .refl
    | some p => rw [ancestor_of_parent? hp]; exact .step hp (ih p)

/-- A walk up with more steps than the number of its start ends at a node without a parent. -/
theorem parent?_ancestor_of_lt (hd : d.WellFormed) {n id : Nat} (h : id < n) :
    d.parent? (d.ancestor n id) = none := by
  induction n generalizing id with
  | zero => exact absurd h (Nat.not_lt_zero id)
  | succ n ih =>
    cases hp : d.parent? id with
    | none => rwa [ancestor_of_parent?_eq_none hp]
    | some p =>
      rw [ancestor_of_parent? hp]
      exact ih (Nat.lt_of_lt_of_le (hd.parent_lt hp) (Nat.le_of_lt_succ h))

/-- **A walk up ends at a node without a parent**, and not at its bound. -/
theorem parent?_ancestor (hd : d.WellFormed) (id : NodeId) {n : Nat} (hn : d.size ≤ n) :
    d.parent? (d.ancestor n id) = none := by
  rcases Nat.lt_or_ge id d.size with hlt | hge
  · exact parent?_ancestor_of_lt hd (Nat.lt_of_lt_of_le hlt hn)
  · have hnone : d.parent? id = none := by simp [parent?, node?_eq_none_iff.mpr hge]
    rwa [ancestor_of_parent?_eq_none hnone]

/-- A node without a parent is above another only if the walk up from there ends at it. -/
theorem ancestor_eq_of_below (hd : d.WellFormed) {a id : NodeId} (ha : d.parent? a = none)
    (h : d.Below a id) {n : Nat} (hn : d.size ≤ n) : d.ancestor n id = a := by
  have hup := below_ancestor d n id
  have hnone := parent?_ancestor hd id hn
  have hsame : ∀ {x y : NodeId}, d.parent? y = none → d.Below x y → x = y := by
    intro x y hy hxy
    cases hxy with
    | refl => rfl
    | step hp _ => rw [hp] at hy; exact absurd hy nofun
  rcases hup.total h with hbelow | hbelow
  · exact hsame ha hbelow
  · exact (hsame hnone hbelow).symm

/-- **A node is connected if and only if it is below the root.** -/
theorem isConnected_iff (hd : d.WellFormed) {id : NodeId} :
    d.isConnected id = true ↔ d.Below root id := by
  rw [isConnected, beq_iff_eq]
  constructor
  · intro h
    have hup := below_ancestor d d.size id
    rwa [h] at hup
  · intro h
    exact ancestor_eq_of_below hd hd.parent?_root h (Nat.le_refl _)

/-- **Nobody walks up for ever.** -/
theorem exists_parent?_ne (hd : d.WellFormed) (walk : Nat → Nat) :
    ∃ n, d.parent? (walk n) ≠ some (walk (n + 1)) := by
  by_contra hall
  push Not at hall
  have hdown : ∀ n : Nat, walk n + n ≤ walk 0 := by
    intro n
    induction n with
    | zero => exact Nat.le_refl _
    | succ n ih =>
      have hlt : walk (n + 1) < walk n := hd.parent_lt (hall n)
      omega
  have := hdown (walk 0 + 1)
  omega

/-! ## 3. Down -/

/-- What is listed is below the nodes that the walk begins with. -/
theorem below_of_mem_preorder (hd : d.WellFormed) {n : Nat} {ids : List NodeId} {x : NodeId}
    (hx : x ∈ d.preorder n ids) : ∃ a ∈ ids, d.Below a x := by
  induction n generalizing ids with
  | zero => exact absurd hx List.not_mem_nil
  | succ n ih =>
    cases ids with
    | nil => exact absurd hx List.not_mem_nil
    | cons id rest =>
      rw [preorder] at hx
      rcases List.mem_cons.mp hx with rfl | hx
      · exact ⟨x, List.mem_cons_self, .refl⟩
      · obtain ⟨a, ha, hax⟩ := ih hx
        rcases List.mem_append.mp ha with ha | ha
        · exact ⟨id, List.mem_cons_self, (Below.child hd .refl ha).trans hax⟩
        · exact ⟨a, List.mem_cons_of_mem id ha, hax⟩

/-- No node is below two of the nodes on the list. -/
def Apart (d : Document) (ids : List NodeId) : Prop :=
  ids.Pairwise fun a b => ∀ x, d.Below a x → ¬ d.Below b x

/-- The children of the first node take its place on the list. -/
theorem Apart.children (hd : d.WellFormed) {id : NodeId} {rest : List NodeId}
    (h : d.Apart (id :: rest)) : d.Apart (d.children id ++ rest) := by
  obtain ⟨hid, hrest⟩ := List.pairwise_cons.mp h
  refine List.pairwise_append.mpr ⟨?_, hrest, fun c hc b hb x hcx => ?_⟩
  · refine List.Pairwise.imp_of_mem (fun ha hb hne x hax hbx => ?_) (hd.nodup_children id)
    exact hne (eq_of_below_siblings hd ha hb hax hbx)
  · exact hid b hb x ((Below.child hd .refl hc).trans hcx)

/-- **No node is listed twice.** -/
theorem nodup_preorder (hd : d.WellFormed) {n : Nat} {ids : List NodeId} (h : d.Apart ids) :
    (d.preorder n ids).Nodup := by
  induction n generalizing ids with
  | zero => exact List.nodup_nil
  | succ n ih =>
    cases ids with
    | nil => exact List.nodup_nil
    | cons id rest =>
      rw [preorder]
      refine List.nodup_cons.mpr ⟨fun hmem => ?_, ih (h.children hd)⟩
      obtain ⟨a, ha, hbelow⟩ := below_of_mem_preorder hd hmem
      rcases List.mem_append.mp ha with ha | ha
      · exact not_below_of_mem_children hd ha hbelow
      · exact (List.pairwise_cons.mp h).1 a ha id .refl hbelow

/-- **The trees at the listed nodes are the trees in those that the walk begins with**, if there are
enough visits for all of them. -/
theorem map_tree_preorder (hd : d.WellFormed) {n : Nat} {ids : List NodeId}
    (hn : sizeAll (ids.map d.tree) ≤ n) :
    (d.preorder n ids).map d.tree = subtreesAll (ids.map d.tree) := by
  induction n generalizing ids with
  | zero =>
    cases ids with
    | nil => rfl
    | cons id rest =>
      have hpos := (d.tree id).size_pos
      rw [List.map_cons, sizeAll_cons] at hn
      omega
  | succ n ih =>
    cases ids with
    | nil => rfl
    | cons id rest =>
      rw [List.map_cons, sizeAll_cons, Document.tree_eq hd id, size_node] at hn
      have hn' : sizeAll ((d.children id ++ rest).map d.tree) ≤ n := by
        rw [List.map_append, sizeAll_append]
        omega
      rw [preorder, List.map_cons, ih hn', List.map_append, subtreesAll_append, List.map_cons,
        subtreesAll_cons, Document.tree_eq hd id, subtrees_node, List.cons_append]

/-- The same from one node on. -/
theorem map_tree_preorder_singleton (hd : d.WellFormed) {n : Nat} {id : NodeId}
    (hn : (d.tree id).size ≤ n) : (d.preorder n [id]).map d.tree = (d.tree id).subtrees := by
  have hlist : (d.preorder n [id]).map d.tree = subtreesAll ([id].map d.tree) :=
    map_tree_preorder hd (by simpa using hn)
  rwa [List.map_singleton, subtreesAll_cons, subtreesAll_nil, List.append_nil] at hlist

/-- Visits that are left over do not matter. -/
theorem preorder_eq_of_le (hd : d.WellFormed) {m n : Nat} {ids : List NodeId}
    (hm : sizeAll (ids.map d.tree) ≤ m) (hn : m ≤ n) : d.preorder n ids = d.preorder m ids := by
  induction m generalizing n ids with
  | zero =>
    cases ids with
    | nil => cases n <;> rfl
    | cons id rest =>
      have hpos := (d.tree id).size_pos
      rw [List.map_cons, sizeAll_cons] at hm
      omega
  | succ m ih =>
    obtain ⟨n, rfl⟩ := Nat.exists_eq_add_of_le' (Nat.lt_of_lt_of_le (Nat.succ_pos m) hn)
    cases ids with
    | nil => rfl
    | cons id rest =>
      rw [List.map_cons, sizeAll_cons, Document.tree_eq hd id, size_node] at hm
      rw [preorder, preorder, ih _ (Nat.le_of_succ_le_succ hn)]
      rw [List.map_append, sizeAll_append]
      omega

/-- **A tree has no more nodes than the table.** -/
theorem size_tree_le (hd : d.WellFormed) (id : NodeId) : (d.tree id).size ≤ d.size := by
  rcases Nat.lt_or_ge id d.size with hlt | hge
  · have hlength := congrArg List.length
      (map_tree_preorder_singleton hd (Nat.le_refl (d.tree id).size))
    rw [List.length_map, length_subtrees] at hlength
    have hnodup : (d.preorder (d.tree id).size [id]).Nodup :=
      nodup_preorder hd (List.pairwise_singleton _ _)
    have hsub : d.preorder (d.tree id).size [id] ⊆ List.range d.size := by
      intro x hx
      obtain ⟨a, ha, hax⟩ := below_of_mem_preorder hd hx
      obtain rfl := List.mem_singleton.mp ha
      cases hax with
      | refl => exact List.mem_range.mpr hlt
      | step hp _ => exact List.mem_range.mpr (lt_size_of_parent? hp)
    have hle := hnodup.length_le_of_subset hsub
    rwa [hlength, List.length_range] at hle
  · rw [Document.tree_eq hd, children_eq_nil_of_size_le hge]
    exact hd.size_pos

/-- **What is listed from a node on are the trees in the tree that stands there.** -/
theorem map_tree_descendants (hd : d.WellFormed) (id : NodeId) :
    (d.descendants id).map d.tree = (d.tree id).subtrees :=
  map_tree_preorder_singleton hd (size_tree_le hd id)

/-- The bound on the visits is not what ends a walk down. -/
theorem preorder_eq_descendants (hd : d.WellFormed) (id : NodeId) {n : Nat} (hn : d.size ≤ n) :
    d.preorder n [id] = d.descendants id :=
  preorder_eq_of_le hd (by simpa using size_tree_le hd id) hn

/-- **Nobody walks down for ever.** -/
theorem exists_not_mem_children (hd : d.WellFormed) (walk : Nat → NodeId) :
    ∃ n, walk (n + 1) ∉ d.children (walk n) := by
  by_contra hall
  push Not at hall
  have hup : ∀ n : Nat, n ≤ walk n := by
    intro n
    induction n with
    | zero => exact Nat.zero_le _
    | succ n ih => exact Nat.succ_le_of_lt (Nat.lt_of_le_of_lt ih (hd.lt_of_mem_children (hall n)))
  have hlt := hd.lt_size_of_mem_children (hall d.size)
  exact absurd (hup (d.size + 1)) (Nat.not_le.mpr (Nat.lt_succ_of_lt hlt))

end Document

end Stencil
