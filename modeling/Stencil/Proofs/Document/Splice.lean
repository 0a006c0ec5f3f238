/-
# Putting a fragment in the place of a node

`replace` puts the trees at the top of one document in the place of a node of another.  It is an
exact splice (`replace_exact`): in the row of the parent the copies stand where the node stood, they
are the trees of the fragment again, their nodes have the next free numbers in preorder, and nothing
else changes but that the node has lost its parent.  So the markup in the parent changes by the
markup of the fragment in the place of the node.

By definition the copies are put into the table as one list of nodes, which have their links from
the beginning.  A copy can also be made node by node: a node is made without children, its children
are copied behind it one after the other, and only then are their numbers known and written into its
row (`copyNode`).  Both come to the same table (`replaceByCopying_eq`), since copying a node does
not look at the table but for its size.
-/
import Stencil.Proofs.Document.Forest

namespace Stencil

/-! ## 1. Lists of trees -/

namespace Tree

/-- The markup of trees is the markup of each, one after the other. -/
theorem printAll_eq_flatMap (layout : Layout) (ts : List Tree) :
    printAll layout ts = ts.flatMap (print layout) := by
  induction ts with
  | nil => rfl
  | cons t rest ih => rw [printAll, ih, List.flatMap_cons]

theorem numberedAll_append (parent start : Nat) (ss ts : List Tree) :
    numberedAll parent start (ss ++ ts) =
      numberedAll parent start ss ++ numberedAll parent (start + sizeAll ss) ts := by
  induction ss generalizing start with
  | nil => rfl
  | cons s ss ih =>
    rw [List.cons_append, numberedAll, numberedAll, ih, sizeAll_cons, Nat.add_assoc,
      List.append_assoc]

theorem topIds_append (start : Nat) (ss ts : List Tree) :
    topIds start (ss ++ ts) = topIds start ss ++ topIds (start + sizeAll ss) ts := by
  induction ss generalizing start with
  | nil => rfl
  | cons s ss ih => simp [topIds, ih, Nat.add_assoc]

theorem length_topIds (start : Nat) (ts : List Tree) : (topIds start ts).length = ts.length := by
  induction ts generalizing start with
  | nil => rfl
  | cons t rest ih => rw [topIds, List.length_cons, ih, List.length_cons]

end Tree

namespace Document

open Stencil.Tree

variable {d e source fragment : Document}

/-! ## 2. Numbers in preorder -/

mutual

/-- A walk down over a tree that the table holds meets its numbers in order. -/
theorem Holds.preorder_eq {parent start : Nat} {n : Nat} {behind : List NodeId} : ∀ {t : Tree},
    d.Holds parent start t → t.size ≤ n →
      d.preorder n (start :: behind) = List.range' start t.size ++ d.preorder (n - t.size) behind
  | .node kind children, ⟨hnode, hall⟩, hn => by
    rw [size_node] at hn ⊢
    obtain ⟨n, rfl⟩ := Nat.exists_eq_add_of_le' (Nat.lt_of_lt_of_le (Nat.succ_pos _) hn)
    rw [preorder, children_of_node? hnode, hall.preorder_eq (Nat.le_of_succ_le_succ hn),
      List.range'_succ, Nat.add_sub_add_right, List.cons_append]

theorem HoldsAll.preorder_eq {parent start : Nat} {n : Nat} {behind : List NodeId} :
    ∀ {ts : List Tree}, d.HoldsAll parent start ts → sizeAll ts ≤ n →
      d.preorder n (topIds start ts ++ behind) =
        List.range' start (sizeAll ts) ++ d.preorder (n - sizeAll ts) behind
  | [], _, _ => rfl
  | t :: rest, ⟨ht, hrest⟩, hn => by
    rw [sizeAll_cons] at hn ⊢
    rw [topIds, List.cons_append, ht.preorder_eq (by omega), hrest.preorder_eq (by omega),
      ← List.append_assoc, List.range'_append_1, Nat.sub_sub]

end

/-- **Below a tree that the table holds are its numbers, in order.** -/
theorem Holds.descendants_eq (hd : d.WellFormed) {parent start : NodeId} {t : Tree}
    (h : d.Holds parent start t) : d.descendants start = List.range' start t.size := by
  have hsize : t.size ≤ d.size := by
    have hle := size_tree_le hd start
    rwa [h.tree_eq hd] at hle
  have hnil : ∀ n, d.preorder n [] = [] := by
    intro n
    cases n <;> rfl
  rw [descendants, h.preorder_eq hsize, hnil, List.append_nil]

theorem HoldsAll.flatMap_descendants (hd : d.WellFormed) {parent start : Nat} {ts : List Tree}
    (h : d.HoldsAll parent start ts) :
    (topIds start ts).flatMap d.descendants = List.range' start (sizeAll ts) := by
  induction ts generalizing start with
  | nil => rfl
  | cons t rest ih =>
    rw [topIds, List.flatMap_cons, h.1.descendants_eq hd, ih h.2, List.range'_append_1,
      sizeAll_cons]

/-! ## 3. Copies made node by node -/

/-- Copies nodes under `parent`, one after the other, and collects the numbers of the copies. -/
def copyAll (copy : Document → NodeId → NodeId → Document × NodeId) (parent : NodeId) :
    Document → List NodeId → Document × List NodeId
  | d, [] => (d, [])
  | d, id :: rest =>
    let copied := copy d id parent
    let r := copyAll copy parent copied.1 rest
    (r.1, copied.2 :: r.2)

/-- Copies a node of `source`, with all below it, under `parent`, and tells the number of the copy.
The row of the copy is written when all its children have been copied.  No row names the copy
itself. -/
def copyNode (source : Document) :
    (depth : Nat) → Document → (id parent : NodeId) → Document × NodeId
  | 0, d, _, _ => (d, d.size)
  | depth + 1, d, id, parent =>
    let made : Document := ⟨d.nodes.push ⟨source.kind id, some parent, []⟩⟩
    let r := copyAll (copyNode source depth) d.size made (source.children id)
    (r.1.modifyChildren d.size fun _ => r.2, d.size)

/-- Puts copies of the top trees of `fragment`, made node by node, in the place of a node. -/
def replaceByCopying (d : Document) (id : NodeId) (fragment : Document) : Document × Nat :=
  match d.parent? id with
  | none => (d, 0)
  | some parent =>
    if (d.children parent).contains id then
      let r := copyAll (copyNode fragment fragment.size) parent d (fragment.children root)
      ((r.1.orphan id).modifyChildren parent (splice id r.2), r.2.length)
    else (d, 0)

theorem grown_grown (d : Document) (p : NodeId) (ss ts : List Tree) :
    (d.grown p ss).grown p ts = d.grown p (ss ++ ts) := by
  rw [grown, size_grown]
  simp [grown, numberedAll_append]

/-- If each copy puts a tree behind the nodes of the table, all copies put the trees there. -/
theorem copyAll_eq {copy : Document → NodeId → NodeId → Document × NodeId} {p : NodeId}
    {tree : NodeId → Tree} {ids : List NodeId}
    (hcopy : ∀ d, ∀ id ∈ ids, copy d id p = (d.grown p [tree id], d.size)) (d : Document) :
    copyAll copy p d ids = (d.grown p (ids.map tree), topIds d.size (ids.map tree)) := by
  induction ids generalizing d with
  | nil => simp [copyAll, grown, topIds, numberedAll]
  | cons id rest ih =>
    have hrest := ih fun d c hc => hcopy d c (List.mem_cons_of_mem id hc)
    rw [copyAll, hcopy d id List.mem_cons_self, hrest, grown_grown, size_grown]
    rfl

theorem modify_append_cons {α : Type} (l r : List α) (a : α) (f : α → α) :
    (l ++ a :: r).modify l.length f = l ++ f a :: r := by
  induction l with
  | nil => rfl
  | cons b l ih => exact congrArg (b :: ·) ih

/-- The row of a node that was made before its children is written into its entry. -/
theorem modifyChildren_grown (d : Document) (kind : NodeKind) (parent : NodeId) (ts : List Tree)
    {f : List NodeId → List NodeId} (hf : f [] = topIds (d.size + 1) ts) :
    (Document.grown ⟨d.nodes.push ⟨kind, some parent, []⟩⟩ d.size ts).modifyChildren d.size f =
      d.grown parent [.node kind ts] := by
  have hsize : (⟨d.nodes.push ⟨kind, some parent, []⟩⟩ : Document).size = d.size + 1 := by
    simp [Document.size]
  have hentry := modify_append_cons d.nodes.toList (numberedAll d.size (d.size + 1) ts)
    ⟨kind, some parent, []⟩ fun n => { n with children := f n.children }
  rw [grown, hsize, modifyChildren, Document.modify, grown, Document.mk.injEq, ← Array.toList_inj,
    Array.toList_modify]
  simpa [numberedAll, numbered, Document.size, hf] using hentry

/-- **A copy that is made node by node** puts the tree behind the nodes of the table. -/
theorem copyNode_eq (hs : source.WellFormed) {depth id : Nat} (hid : id < source.size)
    (hdepth : source.size ≤ id + depth) (d : Document) (parent : NodeId) :
    copyNode source depth d id parent = (d.grown parent [source.tree id], d.size) := by
  induction depth generalizing d id parent with
  | zero => exact absurd hdepth (Nat.not_le.mpr hid)
  | succ depth ih =>
    have hcopy : ∀ e, ∀ c ∈ source.children id, copyNode source depth e c d.size =
        (e.grown d.size [source.tree c], e.size) := by
      intro e c hc
      have hlt := hs.lt_of_mem_children hc
      exact ih (hs.lt_size_of_mem_children hc) (by omega) e d.size
    have hmade :
        (⟨d.nodes.push ⟨source.kind id, some parent, []⟩⟩ : Document).size = d.size + 1 := by
      simp [Document.size]
    rw [copyNode, copyAll_eq hcopy, hmade, modifyChildren_grown d _ parent _ rfl,
      Document.tree_eq hs id]

/-- **Replacing with copies made node by node** comes to the same document. -/
theorem replaceByCopying_eq (hf : fragment.WellFormed) (d : Document) (id : NodeId) :
    d.replaceByCopying id fragment = d.replace id fragment := by
  have hcopies : ∀ p, copyAll (copyNode fragment fragment.size) p d (fragment.children root) =
      (d.grown p fragment.trees, topIds d.size fragment.trees) := by
    intro p
    refine copyAll_eq (fun e c hc => ?_) d
    exact copyNode_eq hf (hf.lt_size_of_mem_children hc) (Nat.le_add_left _ _) e p
  rw [replaceByCopying, replace]
  cases d.parent? id with
  | none => rfl
  | some p =>
    dsimp only
    rw [hcopies, length_topIds]
    rfl

/-! ## 4. The splice -/

/-- The copies of the top trees of a fragment stand in the place that a node had in the row of `p`,
and nothing else has changed. -/
structure Spliced (d e : Document) (id p : NodeId) (place : Nat) (fragment : Document)
    (copies : List NodeId) : Prop where
  wellFormed : e.WellFormed
  /-- The copies take the place of the node. -/
  row_eq : e.children p = (d.children p).take place ++ copies ++ (d.children p).drop (place + 1)
  length_copies : copies.length = (fragment.children root).length
  /-- They are copies: the same trees, in the same order. -/
  trees_eq : copies.map e.tree = (fragment.children root).map fragment.tree
  size_eq : e.size = d.size + sizeAll fragment.trees
  /-- The new numbers follow the old ones, each node before those below it, left before right. -/
  numbers_eq : copies.flatMap e.descendants = List.range' d.size (sizeAll fragment.trees)
  /-- The node has lost its place, and nothing else. -/
  parent?_self : e.parent? id = none
  children_self : e.children id = d.children id
  kind_eq : ∀ {x : Nat}, x < d.size → e.kind x = d.kind x
  parent?_eq : ∀ {x : Nat}, x < d.size → x ≠ id → e.parent? x = d.parent? x
  children_eq : ∀ {x : Nat}, x < d.size → x ≠ p → e.children x = d.children x
  /-- In the markup under the parent, the fragment stands where the node stood.  (Every document
  that can be made has a fragment for its root, see `kind_root_of_made`.) -/
  inner_eq : fragment.kind root = .fragment →
    e.inner p = ((d.children p).take place).flatMap d.outer ++ fragment.print .verbatim ++
      ((d.children p).drop (place + 1)).flatMap d.outer

/-- The root of every document that can be made is a fragment. -/
theorem kind_root_of_made (h : d.Made) : d.kind root = .fragment := by
  induction h with
  | empty => rfl
  | parsed hparse =>
    obtain ⟨ts, -, rfl⟩ := exists_of_map_eq_ok hparse
    rfl
  | extracted => rfl
  | appended h hp kind ih =>
    have hd := wellFormed_of_made h
    exact ((grafted_append hd hp kind).kind_eq hd.size_pos).trans ih
  | detached _ id ih => exact (kind_detach _ id root).trans ih
  | @replaced d fragment h id _ ih _ =>
    have hd := wellFormed_of_made h
    cases hp : d.parent? id with
    | none => rwa [Document.replace, hp]
    | some p =>
      obtain ⟨before, behind, hchildren⟩ := List.append_of_mem (hd.mem_children_iff.mpr hp)
      obtain ⟨e, heq, hgrafted, -⟩ := replace_spec hd hchildren fragment
      rw [heq]
      exact (hgrafted.kind_eq hd.size_pos).trans ih
  | edited _ id g ih =>
    rw [kind_modifyElement, ih]
    exact ite_self _

theorem inner_eq_flatMap (d : Document) (p : NodeId) :
    d.inner p = (d.children p).flatMap d.outer := by
  rw [inner, printAll_eq_flatMap, List.flatMap_map]
  rfl

/-- What is printed of a document is the markup of the trees at its top. -/
theorem print_eq_flatMap (hf : fragment.WellFormed) (hroot : fragment.kind root = .fragment)
    (layout : Layout) : fragment.print layout = fragment.trees.flatMap (Tree.print layout) := by
  rw [print, tree_root hf, hroot, Tree.print, printAll_eq_flatMap]

/-- **A graft that stands in the place of a node is a splice.** -/
theorem Grafted.spliced {id p : NodeId} {before behind : List NodeId} (hd : d.WellFormed)
    (hf : fragment.WellFormed) (h : Grafted d e p (· = id) fragment.trees)
    (hrow : d.children p = before ++ id :: behind)
    (hrow' : e.children p = before ++ topIds d.size fragment.trees ++ behind) :
    Spliced d e id p before.length fragment (topIds d.size fragment.trees) := by
  have he := h.wellFormed hd
  have htrees : (topIds d.size fragment.trees).map e.tree = fragment.trees := h.map_tree_topIds hd
  have hid : id ∈ d.children p := by simp [hrow]
  have htake : (d.children p).take before.length = before := by simp [hrow]
  have hdrop : (d.children p).drop (before.length + 1) = behind := by simp [hrow]
  have hlt := hd.lt_size_of_mem_children hid
  have hne : id ≠ p := (Nat.ne_of_lt (hd.lt_of_mem_children hid)).symm
  have houter : ∀ ids : List NodeId, (∀ c ∈ ids, c ∈ d.children p) →
      ids.flatMap e.outer = ids.flatMap d.outer := by
    intro ids hids
    refine List.flatMap_congr fun c hc => ?_
    rw [outer, h.tree_eq hd (hids c hc), ← outer]
  refine ⟨he, by rw [htake, hdrop, hrow'], ?_, htrees, h.size_eq,
    h.holdsAll.flatMap_descendants he, h.parent?_gone rfl, h.children_ne hlt hne, h.kind_eq,
    h.parent?_kept, h.children_ne, fun hroot => ?_⟩
  · rw [length_topIds, trees, List.length_map]
  · have hcopies : (topIds d.size fragment.trees).flatMap e.outer = fragment.print .verbatim := by
      calc (topIds d.size fragment.trees).flatMap e.outer
          = ((topIds d.size fragment.trees).map e.tree).flatMap (Tree.print .verbatim) := by
            rw [List.flatMap_map]
            rfl
        _ = fragment.print .verbatim := by rw [htrees, print_eq_flatMap hf hroot]
    rw [inner_eq_flatMap, hrow', List.flatMap_append, List.flatMap_append, hcopies, htake, hdrop,
      houter before fun c hc => by simp [hrow, hc], houter behind fun c hc => by simp [hrow, hc]]

/-- **Replacing a node with a fragment is an exact splice**, whether the copies are put into the
table at once or made node by node, and the answer is the number of the copies.  A node without a
parent has no place, and nothing happens. -/
theorem replace_exact (hd : d.WellFormed) (hf : fragment.WellFormed) (id : NodeId) :
    d.replaceByCopying id fragment = d.replace id fragment ∧
    (d.parent? id = none → d.replace id fragment = (d, 0)) ∧
    ∀ p place, d.parent? id = some p → (d.children p)[place]? = some id →
      ∃ e copies, d.replace id fragment = (e, copies.length) ∧
        Spliced d e id p place fragment copies := by
  refine ⟨replaceByCopying_eq hf d id, fun hnone => by rw [replace, hnone], ?_⟩
  intro p place hp hplace
  obtain ⟨hlt, hget⟩ := List.getElem?_eq_some_iff.mp hplace
  have hrow : d.children p =
      (d.children p).take place ++ id :: (d.children p).drop (place + 1) := by
    rw [← hget, List.getElem_cons_drop, List.take_append_drop]
  obtain ⟨e, heq, hgrafted, hrow'⟩ := replace_spec hd hrow fragment
  have hlength : ((d.children p).take place).length = place := by simp [Nat.le_of_lt hlt]
  have hspliced := hgrafted.spliced hd hf hrow hrow'
  rw [hlength] at hspliced
  exact ⟨e, _, by rw [heq, length_topIds], hspliced⟩

/-- What `<p>x<U>z</U>y</p>` writes. -/
def rowSample : Document :=
  ofTrees [.node (.element { name := ['p'] })
    [.leaf (.text ['x']), .node (.element { name := ['U'] }) [.leaf (.text ['z'])],
      .leaf (.text ['y'])]]

/-- What `<i>1</i>2` writes. -/
def pairSample : Document :=
  ofTrees [.node (.element { name := ['i'] }) [.leaf (.text ['1'])], .leaf (.text ['2'])]

theorem replace_rowSample :
    rowSample.WellFormed ∧ pairSample.WellFormed ∧ pairSample.kind root = .fragment ∧
    rowSample.parent? 3 = some 1 ∧ (rowSample.children 1)[1]? = some 3 ∧
    ∃ e copies, rowSample.replace 3 pairSample = (e, 2) ∧
      Spliced rowSample e 3 1 1 pairSample copies ∧ e.children 1 = [2, 6, 8, 5] ∧
      e.inner 1 = "x<i>1</i>2y".toList := by
  have hparse : (parse "<i>1</i>2".toList).toOption = some pairSample := by decide +kernel
  have hpair := Made.parsed (eq_ok_of_toOption hparse)
  have hrow : rowSample.WellFormed := wellFormed_ofTrees _
  have hparent : rowSample.parent? 3 = some 1 := by decide
  have hplace : (rowSample.children 1)[1]? = some 3 := by decide
  obtain ⟨-, -, hreplace⟩ := replace_exact hrow (wellFormed_of_made hpair) 3
  obtain ⟨e, copies, heq, hspliced⟩ := hreplace 1 1 hparent hplace
  obtain rfl : (rowSample.replace 3 pairSample).1 = e := congrArg Prod.fst heq
  have hroot := kind_root_of_made hpair
  refine ⟨hrow, wellFormed_of_made hpair, hroot, hparent, hplace, _, copies, ?_, hspliced, ?_, ?_⟩
  · rw [heq, hspliced.length_copies]
    rfl
  · decide +kernel
  · rw [hspliced.inner_eq hroot]
    decide +kernel

end Document

end Stencil
