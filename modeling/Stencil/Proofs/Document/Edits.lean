/-
# What edits change

The edits of a document are made of two steps: a change of what stands at a node, and a change of
the links around one node.  For each edit this module says what it does to the three things that can
be seen of a node, its kind, its parent and its children; after that no edit is unfolded again.

Every change of links is a graft (`grafted_ofTrees`, `grafted_append`, `grafted_detach`,
`replace_spec`), so all of them keep a document well-formed.

`ChangedBelow d e p` says that `e` is like `d` except below `p`.  Such changes can be put one after
the other (`ChangedBelow.trans`) and seen from further up (`ChangedBelow.up`), and they leave the
trees beside `p` alone (`ChangedBelow.tree_eq`).
-/
import Stencil.Proofs.Document.Numbering
import Stencil.Document.Edit

namespace Stencil.Document

variable {d e f : Document}

/-! ## 1. Changing one node -/

theorem node?_modify (d : Document) (id x : NodeId) (g : Node → Node) :
    (d.modify id g).node? x = if id = x then (d.node? x).map g else d.node? x :=
  Array.getElem?_modify

@[simp] theorem size_modify (d : Document) (id : NodeId) (g : Node → Node) :
    (d.modify id g).size = d.size := Array.size_modify

section Modify

variable (d : Document) (id x : NodeId)

@[simp] theorem size_modifyElement (g : Element → Element) :
    (d.modifyElement id g).size = d.size := size_modify _ _ _

theorem kind_modifyElement (g : Element → Element) :
    (d.modifyElement id g).kind x = if id = x then (d.kind x).mapElement g else d.kind x := by
  by_cases h : id = x
  · cases hn : d.node? x <;> simp [modifyElement, kind, node?_modify, h, hn, NodeKind.mapElement]
  · simp [modifyElement, kind, node?_modify, h]

@[simp] theorem parent?_modifyElement (g : Element → Element) :
    (d.modifyElement id g).parent? x = d.parent? x := by
  by_cases h : id = x
  · cases hn : d.node? x <;> simp [modifyElement, parent?, node?_modify, h, hn]
  · simp [modifyElement, parent?, node?_modify, h]

@[simp] theorem children_modifyElement (g : Element → Element) :
    (d.modifyElement id g).children x = d.children x := by
  by_cases h : id = x
  · cases hn : d.node? x <;> simp [modifyElement, children, node?_modify, h, hn]
  · simp [modifyElement, children, node?_modify, h]

@[simp] theorem size_modifyChildren (g : List NodeId → List NodeId) :
    (d.modifyChildren id g).size = d.size := size_modify _ _ _

@[simp] theorem kind_modifyChildren (g : List NodeId → List NodeId) :
    (d.modifyChildren id g).kind x = d.kind x := by
  by_cases h : id = x
  · cases hn : d.node? x <;> simp [modifyChildren, kind, node?_modify, h, hn]
  · simp [modifyChildren, kind, node?_modify, h]

@[simp] theorem parent?_modifyChildren (g : List NodeId → List NodeId) :
    (d.modifyChildren id g).parent? x = d.parent? x := by
  by_cases h : id = x
  · cases hn : d.node? x <;> simp [modifyChildren, parent?, node?_modify, h, hn]
  · simp [modifyChildren, parent?, node?_modify, h]

/-- The new children of a node; a number without a node has none, whatever the change. -/
theorem children_modifyChildren (g : List NodeId → List NodeId) (hid : id < d.size) :
    (d.modifyChildren id g).children x = if id = x then g (d.children x) else d.children x := by
  by_cases h : id = x
  · subst h
    obtain ⟨n, hn⟩ := exists_node_of_lt hid
    simp [modifyChildren, children, node?_modify, hn]
  · simp [modifyChildren, children, node?_modify, h]

@[simp] theorem size_orphan : (d.orphan id).size = d.size := size_modify _ _ _

@[simp] theorem kind_orphan : (d.orphan id).kind x = d.kind x := by
  by_cases h : id = x
  · cases hn : d.node? x <;> simp [orphan, kind, node?_modify, h, hn]
  · simp [orphan, kind, node?_modify, h]

@[simp] theorem children_orphan : (d.orphan id).children x = d.children x := by
  by_cases h : id = x
  · cases hn : d.node? x <;> simp [orphan, children, node?_modify, h, hn]
  · simp [orphan, children, node?_modify, h]

theorem parent?_orphan : (d.orphan id).parent? x = if id = x then none else d.parent? x := by
  by_cases h : id = x
  · cases hn : d.node? x <;> simp [orphan, parent?, node?_modify, h, hn]
  · simp [orphan, parent?, node?_modify, h]

end Modify

/-- A change of what stands at a node changes no links. -/
theorem WellFormed.modifyElement (h : d.WellFormed) (id : NodeId) (g : Element → Element) :
    (d.modifyElement id g).WellFormed where
  size_pos := by rw [size_modifyElement]; exact h.size_pos
  parent?_root := by rw [parent?_modifyElement]; exact h.parent?_root
  mem_children_iff {p c} := by simpa using @mem_children_iff d h p c
  nodup_children := by simpa using h.nodup_children
  parent_lt {p c} := by simpa using @parent_lt d h p c

/-! ## 2. Making a document -/

theorem node?_ofTrees_succ (ts : List Tree) (i : Nat) :
    (ofTrees ts).node? (1 + i) = (Tree.numberedAll root 1 ts)[i]? := by
  simp [ofTrees, node?, Nat.add_comm 1 i]

theorem size_ofTrees (ts : List Tree) : (ofTrees ts).size = 1 + Tree.sizeAll ts := by
  simp [ofTrees, size, Tree.length_numberedAll, Nat.add_comm]

@[simp] theorem kind_root_ofTrees (ts : List Tree) : (ofTrees ts).kind root = .fragment := rfl

@[simp] theorem children_root_ofTrees (ts : List Tree) :
    (ofTrees ts).children root = Tree.topIds 1 ts := rfl

theorem wellFormed_empty : empty.WellFormed := by
  have hnil : ∀ x : Nat, empty.parent? x = none ∧ empty.children x = [] := by
    intro x
    cases x with
    | zero => exact ⟨rfl, rfl⟩
    | succ x => exact ⟨by simp [empty, ofTrees, parent?, node?, Tree.numberedAll],
        by simp [empty, ofTrees, children, node?, Tree.numberedAll]⟩
  refine ⟨Nat.zero_lt_one, (hnil 0).1, ?_, ?_, ?_⟩
  · intro p c
    simp [hnil]
  · intro p
    simp [hnil]
  · intro p c hc
    simp [hnil] at hc

/-- A document made of trees is a graft on the one that has none. -/
theorem grafted_ofTrees (ts : List Tree) :
    Grafted empty (ofTrees ts) root (fun _ => False) ts where
  lt_size := Nat.zero_lt_one
  size_eq := size_ofTrees ts
  holdsAll := holdsAll_of_node? fun i _ => node?_ofTrees_succ ts i
  kind_eq {x} hx := by
    obtain rfl : x = 0 := by simpa [size_ofTrees, empty] using hx
    rfl
  gone_child h := h.elim
  parent?_gone h := h.elim
  parent?_kept {x} hx _ := by
    obtain rfl : x = 0 := by simpa [size_ofTrees, empty] using hx
    rfl
  children_ne {x} hx hne := absurd (show x = 0 by simpa [size_ofTrees, empty] using hx) hne
  mem_children := by simp [empty, size_ofTrees, Tree.topIds]
  nodup_children := Tree.nodup_topIds 1 ts

theorem wellFormed_ofTrees (ts : List Tree) : (ofTrees ts).WellFormed :=
  (grafted_ofTrees ts).wellFormed wellFormed_empty

/-- **A document made of trees has these trees at its top.** -/
@[simp] theorem trees_ofTrees (ts : List Tree) : (ofTrees ts).trees = ts :=
  (grafted_ofTrees ts).map_tree_topIds wellFormed_empty

/-- **The tree at its root is a fragment that holds them.** -/
theorem tree_root_ofTrees (ts : List Tree) : (ofTrees ts).tree root = .node .fragment ts := by
  rw [tree_root (wellFormed_ofTrees ts), trees_ofTrees, kind_root_ofTrees]

/-! ## 3. Taking nodes out -/

theorem detach_eq {id p : NodeId} (h : d.parent? id = some p) :
    d.detach id = (d.orphan id).modifyChildren p (·.filter (· != id)) := by
  simp [detach, h]

@[simp] theorem size_detach (d : Document) (id : NodeId) : (d.detach id).size = d.size := by
  unfold detach
  cases d.parent? id <;> simp

@[simp] theorem kind_detach (d : Document) (id x : NodeId) : (d.detach id).kind x = d.kind x := by
  unfold detach
  cases d.parent? id <;> simp

theorem parent?_detach (d : Document) (id x : NodeId) :
    (d.detach id).parent? x = if id = x then none else d.parent? x := by
  unfold detach
  cases hp : d.parent? id with
  | none =>
    by_cases h : id = x
    · simp [← h, hp]
    · simp [h]
  | some p => simp [parent?_orphan]

theorem children_detach (hd : d.WellFormed) {id p : NodeId} (h : d.parent? id = some p)
    (x : NodeId) :
    (d.detach id).children x = if p = x then (d.children x).filter (· != id) else d.children x := by
  rw [detach_eq h, children_modifyChildren _ _ _ _ ?_]
  · simp
  · rw [size_orphan]
    exact Nat.lt_trans (hd.parent_lt h) (lt_size_of_parent? h)

/-- **Taking a child out is a graft of nothing.** -/
theorem grafted_detach (hd : d.WellFormed) {id p : NodeId} (h : d.parent? id = some p) :
    Grafted d (d.detach id) p (· = id) [] where
  lt_size := Nat.lt_trans (hd.parent_lt h) (lt_size_of_parent? h)
  size_eq := by simp
  holdsAll := trivial
  kind_eq _ := kind_detach d id _
  gone_child hx := hx ▸ h
  parent?_gone hx := by simp [parent?_detach, hx]
  parent?_kept _ hx := by rw [parent?_detach, if_neg (Ne.symm hx)]
  children_ne _ hne := by rw [children_detach hd h, if_neg (Ne.symm hne)]
  mem_children := by simp [children_detach hd h, Tree.topIds]
  nodup_children := by
    rw [children_detach hd h, if_pos rfl]
    exact (hd.nodup_children p).filter _

/-! ## 4. Putting trees in the place of a node -/

theorem splice_append {id : NodeId} {news before behind : List NodeId} (h : id ∉ before) :
    splice id news (before ++ id :: behind) = before ++ news ++ behind := by
  induction before with
  | nil => simp [splice]
  | cons c before ih =>
    have hne : c ≠ id := fun heq => h (heq ▸ List.mem_cons_self)
    rw [List.cons_append, splice, if_neg hne, ih fun hmem => h (List.mem_cons_of_mem c hmem)]
    rfl

/-- Numbers in the place of another stand there once if they stood nowhere before. -/
theorem nodup_in_place {id : NodeId} {news before behind : List NodeId}
    (h : (before ++ id :: behind).Nodup) (hnews : news.Nodup)
    (hnew : ∀ x ∈ news, x ∉ before ++ id :: behind) : (before ++ news ++ behind).Nodup := by
  have hold : (before ++ behind).Nodup :=
    h.sublist (List.Sublist.append_left (List.sublist_cons_self id behind) before)
  rw [List.append_assoc]
  refine (List.perm_append_comm_assoc before _ behind).nodup_iff.mpr ?_
  refine List.Nodup.append hnews hold fun x hx hx' => hnew x hx ?_
  rcases List.mem_append.mp hx' with h | h
  · exact List.mem_append_left _ h
  · exact List.mem_append_right _ (List.mem_cons_of_mem _ h)

/-- The document with the nodes of new trees behind its own.  No row names them yet. -/
def grown (d : Document) (p : NodeId) (ts : List Tree) : Document :=
  ⟨d.nodes ++ (Tree.numberedAll p d.size ts).toArray⟩

/-- The document with new trees in the place of a child of `p`. -/
def replaced (d : Document) (id p : NodeId) (ts : List Tree) : Document :=
  ((d.grown p ts).orphan id).modifyChildren p (splice id (Tree.topIds d.size ts))

section Grown

variable {p : NodeId} {ts : List Tree}

theorem node?_grown (x : Nat) : (d.grown p ts).node? x =
    if x < d.size then d.node? x else (Tree.numberedAll p d.size ts)[x - d.size]? := by
  simp only [grown, node?, size, Array.getElem?_append, List.getElem?_toArray]
  rfl

theorem size_grown : (d.grown p ts).size = d.size + Tree.sizeAll ts := by
  simp [grown, size, Tree.length_numberedAll]

theorem holdsAll_grown : (d.grown p ts).HoldsAll p d.size ts :=
  holdsAll_of_node? fun i _ => by
    rw [node?_grown, if_neg (Nat.not_lt.mpr (Nat.le_add_right _ _)), Nat.add_sub_cancel_left]

variable {x : Nat}

theorem kind_grown (hx : x < d.size) : (d.grown p ts).kind x = d.kind x := by
  rw [kind, node?_grown, if_pos hx, ← kind]

theorem parent?_grown (hx : x < d.size) : (d.grown p ts).parent? x = d.parent? x := by
  rw [parent?, node?_grown, if_pos hx, ← parent?]

theorem children_grown (hx : x < d.size) : (d.grown p ts).children x = d.children x := by
  rw [children, node?_grown, if_pos hx, ← children]

end Grown

section Replaced

variable {id p : NodeId} {before behind : List NodeId}

theorem replace_eq (hd : d.WellFormed) (hid : id ∈ d.children p) (fragment : Document) :
    d.replace id fragment = (d.replaced id p fragment.trees, fragment.trees.length) := by
  simp [replace, hd.mem_children_iff.mp hid, hid, replaced, grown]

theorem children_replaced (hp : p < d.size) (ts : List Tree) (x : NodeId) :
    (d.replaced id p ts).children x =
      if p = x then splice id (Tree.topIds d.size ts) ((d.grown p ts).children x)
      else (d.grown p ts).children x := by
  rw [replaced, children_modifyChildren, children_orphan]
  rw [size_orphan, size_grown]
  exact Nat.lt_add_right _ hp

theorem children_replaced_self (hd : d.WellFormed) (hc : d.children p = before ++ id :: behind)
    (hp : p < d.size) (ts : List Tree) :
    (d.replaced id p ts).children p = before ++ Tree.topIds d.size ts ++ behind := by
  have hnodup := hd.nodup_children p
  rw [hc] at hnodup
  have hbefore : id ∉ before := fun h =>
    (List.nodup_append.mp hnodup).2.2 id h id List.mem_cons_self rfl
  rw [children_replaced hp, if_pos rfl, children_grown hp, hc, splice_append hbefore]

/-- The new nodes are not touched when the place of the child goes to them. -/
theorem holdsAll_replaced (hid : id < d.size) (hp : p < d.size) (ts : List Tree) :
    (d.replaced id p ts).HoldsAll p d.size ts := by
  refine holdsAll_grown.congr fun x hle _ => ?_
  have hxp : p ≠ x := Nat.ne_of_lt (Nat.lt_of_lt_of_le hp hle)
  have hxid : id ≠ x := Nat.ne_of_lt (Nat.lt_of_lt_of_le hid hle)
  rw [replaced, modifyChildren, node?_modify, if_neg hxp, orphan, node?_modify, if_neg hxid]

/-- **Putting trees in the place of a child is a graft of them.** -/
theorem grafted_replaced (hd : d.WellFormed) (hc : d.children p = before ++ id :: behind)
    (ts : List Tree) : Grafted d (d.replaced id p ts) p (· = id) ts := by
  have hmem : id ∈ d.children p := by simp [hc]
  have hparent := hd.mem_children_iff.mp hmem
  have hid := hd.lt_size_of_mem_children hmem
  have hp : p < d.size := Nat.lt_trans (hd.parent_lt hparent) hid
  have hnodup := hd.nodup_children p
  have hnew : ∀ x ∈ Tree.topIds d.size ts, x ∉ d.children p := fun x hx hx' =>
    absurd (Tree.bounds_of_mem_topIds hx).1 (Nat.not_le.mpr (hd.lt_size_of_mem_children hx'))
  exact {
    lt_size := hp
    size_eq := by simp [replaced, size_grown]
    holdsAll := holdsAll_replaced hid hp ts
    kind_eq := fun hx => by
      rw [replaced, kind_modifyChildren, kind_orphan, kind_grown hx]
    gone_child := fun hx => hx ▸ hparent
    parent?_gone := fun hx => by simp [replaced, parent?_orphan, hx]
    parent?_kept := fun hx hne => by
      rw [replaced, parent?_modifyChildren, parent?_orphan, if_neg (Ne.symm hne), parent?_grown hx]
    children_ne := fun hx hne => by
      rw [children_replaced hp, if_neg (Ne.symm hne), children_grown hx]
    mem_children := fun {c} => by
      rw [children_replaced_self hd hc hp, hc]
      rw [hc] at hnodup
      obtain ⟨-, hbehind, hbefore⟩ := List.nodup_append.mp hnodup
      simp only [List.mem_append, List.mem_cons]
      by_cases hcid : c = id
      · subst hcid
        have hnotBefore : c ∉ before := fun h => hbefore c h c List.mem_cons_self rfl
        simp [hnotBefore, (List.nodup_cons.mp hbehind).1]
      · simp [hcid, or_assoc, or_comm, or_left_comm]
    nodup_children := by
      rw [children_replaced_self hd hc hp]
      rw [hc] at hnodup hnew
      exact nodup_in_place hnodup (Tree.nodup_topIds _ _) hnew }

/-- **The place of a node goes to the top trees of a fragment**: the new document is a graft of
them, they stand where the node stood, and the answer is their number. -/
theorem replace_spec (hd : d.WellFormed) (hc : d.children p = before ++ id :: behind)
    (fragment : Document) :
    ∃ e, d.replace id fragment = (e, fragment.trees.length) ∧
      Grafted d e p (· = id) fragment.trees ∧
      e.children p = before ++ Tree.topIds d.size fragment.trees ++ behind := by
  have hgrafted := grafted_replaced hd hc fragment.trees
  refine ⟨_, replace_eq hd (by simp [hc]) fragment, hgrafted, ?_⟩
  exact children_replaced_self hd hc hgrafted.lt_size fragment.trees

end Replaced

/-! ## 5. Making a node -/

section Append

variable {p : NodeId}

/-- A node is made like a leaf that is put behind the others. -/
theorem append_eq (d : Document) (p : NodeId) (kind : NodeKind) :
    d.append p kind = (d.grown p [.leaf kind]).modifyChildren p (· ++ [d.size]) := by
  rw [append, Array.push_eq_append]
  rfl

theorem children_append (hp : p < d.size) (kind : NodeKind) {x : Nat} (hx : x < d.size) :
    (d.append p kind).children x =
      if p = x then d.children x ++ [d.size] else d.children x := by
  rw [append_eq, children_modifyChildren, children_grown hx]
  rw [size_grown]
  exact Nat.lt_add_right _ hp

/-- **Making a node is a graft of a leaf.** -/
theorem grafted_append (hd : d.WellFormed) (hp : p < d.size) (kind : NodeKind) :
    Grafted d (d.append p kind) p (fun _ => False) [.leaf kind] where
  lt_size := hp
  size_eq := by rw [append_eq, size_modifyChildren, size_grown]
  holdsAll := by
    refine holdsAll_grown.congr fun x hle _ => ?_
    rw [append_eq, modifyChildren, node?_modify, if_neg (Nat.ne_of_lt (Nat.lt_of_lt_of_le hp hle))]
  kind_eq hx := by rw [append_eq, kind_modifyChildren, kind_grown hx]
  gone_child h := h.elim
  parent?_gone h := h.elim
  parent?_kept hx _ := by rw [append_eq, parent?_modifyChildren, parent?_grown hx]
  children_ne hx hne := by rw [children_append hp kind hx, if_neg (Ne.symm hne)]
  mem_children {c} := by
    rw [children_append hp kind hp, if_pos rfl]
    simp [Tree.topIds, or_comm]
  nodup_children := by
    rw [children_append hp kind hp, if_pos rfl]
    refine List.Nodup.append (hd.nodup_children p) (List.nodup_singleton _) fun x hx hx' => ?_
    rw [List.mem_singleton.mp hx'] at hx
    exact absurd (hd.lt_size_of_mem_children hx) (Nat.lt_irrefl _)

end Append

/-! ## 6. Changes below a node -/

/-- `e` is like `d` except below `p`; of `p` itself the children may have changed. -/
structure ChangedBelow (d e : Document) (p : NodeId) : Prop where
  size_le : d.size ≤ e.size
  kind_eq : ∀ {x : NodeId}, x < d.size → ¬ d.Below p x ∨ x = p → e.kind x = d.kind x
  parent?_eq : ∀ {x : NodeId}, x < d.size → ¬ d.Below p x ∨ x = p → e.parent? x = d.parent? x
  children_eq : ∀ {x : NodeId}, x < d.size → ¬ d.Below p x → e.children x = d.children x

namespace ChangedBelow

variable {p : NodeId}

theorem refl (d : Document) (p : NodeId) : ChangedBelow d d p :=
  ⟨Nat.le_refl _, fun _ _ => rfl, fun _ _ => rfl, fun _ _ => rfl⟩

/-- What is below the node afterwards was so before, or is new. -/
theorem below_of_below (h : ChangedBelow d e p) (hd : d.WellFormed) {x : NodeId}
    (hx : e.Below p x) : x < d.size → d.Below p x := by
  induction hx with
  | refl => exact fun _ => .refl
  | @step x y hp hy ih =>
    intro hlt
    by_contra hnot
    rw [h.parent?_eq hlt (Or.inl hnot)] at hp
    exact hnot (.step hp (ih (Nat.lt_trans (hd.parent_lt hp) hlt)))

theorem trans (h : ChangedBelow d e p) (h' : ChangedBelow e f p) (hd : d.WellFormed) :
    ChangedBelow d f p := by
  have hstill : ∀ {x : NodeId}, x < d.size → ¬ d.Below p x → ¬ e.Below p x :=
    fun hlt hnot hx => hnot (h.below_of_below hd hx hlt)
  have hlt' : ∀ {x : NodeId}, x < d.size → x < e.size := fun hlt => Nat.lt_of_lt_of_le hlt h.size_le
  refine ⟨Nat.le_trans h.size_le h'.size_le, ?_, ?_, ?_⟩
  · intro x hlt hx
    rw [h'.kind_eq (hlt' hlt) (hx.imp_left (hstill hlt)), h.kind_eq hlt hx]
  · intro x hlt hx
    rw [h'.parent?_eq (hlt' hlt) (hx.imp_left (hstill hlt)), h.parent?_eq hlt hx]
  · intro x hlt hx
    rw [h'.children_eq (hlt' hlt) (hstill hlt hx), h.children_eq hlt hx]

/-- A change below a node is a change below its parent. -/
theorem up (h : ChangedBelow d e p) (hd : d.WellFormed) {q : NodeId} (hq : p ∈ d.children q) :
    ChangedBelow d e q := by
  have hnot : ∀ {x : NodeId}, ¬ d.Below q x ∨ x = q → ¬ d.Below p x := by
    rintro x (hx | rfl) hp
    · exact hx ((Below.child hd .refl hq).trans hp)
    · exact not_below_of_mem_children hd hq hp
  exact ⟨h.size_le, fun hlt hx => h.kind_eq hlt (Or.inl (hnot hx)),
    fun hlt hx => h.parent?_eq hlt (Or.inl (hnot hx)),
    fun hlt hx => h.children_eq hlt (hnot (Or.inl hx))⟩

/-- **The trees beside a node do not feel a change below it.** -/
theorem tree_eq (h : ChangedBelow d e p) (hd : d.WellFormed) {q c : NodeId}
    (hp : p ∈ d.children q) (hc : c ∈ d.children q) (hne : c ≠ p) : e.tree c = d.tree c := by
  refine tree_congr hd h.size_le fun x hx => ?_
  have hlt : x < d.size := by
    cases hx with
    | refl => exact hd.lt_size_of_mem_children hc
    | step hy _ => exact lt_size_of_parent? hy
  have hnot : ¬ d.Below p x := fun hpx => hne (eq_of_below_siblings hd hc hp hx hpx)
  exact ⟨h.kind_eq hlt (Or.inl hnot), h.children_eq hlt hnot⟩

end ChangedBelow

namespace Grafted

variable {p : NodeId} {gone : NodeId → Prop} {ts : List Tree}

/-- A graft changes nothing but what is below its node. -/
theorem changedBelow (h : Grafted d e p gone ts) (hd : d.WellFormed) : ChangedBelow d e p := by
  refine ⟨h.size_eq ▸ Nat.le_add_right _ _, fun hlt _ => h.kind_eq hlt, ?_, ?_⟩
  · intro x hlt hx
    refine h.parent?_kept hlt fun hg => ?_
    have hp := h.gone_child hg
    rcases hx with hx | rfl
    · exact hx (.step hp .refl)
    · exact absurd (hd.parent_lt hp) (Nat.lt_irrefl x)
  · intro x hlt hx
    refine h.children_ne hlt ?_
    rintro rfl
    exact hx .refl

/-- The trees at the old children stay what they were, also those that were taken out. -/
theorem tree_eq (h : Grafted d e p gone ts) (hd : d.WellFormed) {c : NodeId}
    (hc : c ∈ d.children p) : e.tree c = d.tree c := by
  refine tree_congr hd (h.size_eq ▸ Nat.le_add_right _ _) fun x hx => ?_
  have hlt : x < d.size := by
    cases hx with
    | refl => exact hd.lt_size_of_mem_children hc
    | step hy _ => exact lt_size_of_parent? hy
  refine ⟨h.kind_eq hlt, h.children_ne hlt ?_⟩
  rintro rfl
  exact not_below_of_mem_children hd hc hx

end Grafted

/-- A change of what stands at a node changes nothing but what is below its parent. -/
theorem changedBelow_modifyElement (hd : d.WellFormed) {id p : NodeId} (hid : id ∈ d.children p)
    (g : Element → Element) : ChangedBelow d (d.modifyElement id g) p := by
  refine ⟨by simp, ?_, by simp, by simp⟩
  intro x _ hx
  rw [kind_modifyElement, if_neg]
  rintro rfl
  rcases hx with hx | rfl
  · exact hx (.child hd .refl hid)
  · exact absurd (hd.lt_of_mem_children hid) (Nat.lt_irrefl _)

/-- The tree at a node whose element was changed. -/
theorem tree_modifyElement (hd : d.WellFormed) (id : NodeId) (g : Element → Element) :
    (d.modifyElement id g).tree id =
      .node ((d.kind id).mapElement g) ((d.children id).map d.tree) := by
  have hd' := hd.modifyElement id g
  rw [Document.tree_eq hd', kind_modifyElement, if_pos rfl, children_modifyElement]
  congr 1
  refine List.map_congr_left fun c hc => tree_congr hd (by simp) fun x hx => ?_
  refine ⟨?_, by simp⟩
  rw [kind_modifyElement, if_neg]
  rintro rfl
  exact not_below_of_mem_children hd hc hx

/-- The trees beside a node whose element was changed. -/
theorem tree_modifyElement_of_ne (hd : d.WellFormed) {id p c : NodeId} (hid : id ∈ d.children p)
    (hc : c ∈ d.children p) (hne : c ≠ id) (g : Element → Element) :
    (d.modifyElement id g).tree c = d.tree c := by
  refine tree_congr hd (by simp) fun x hx => ⟨?_, by simp⟩
  rw [kind_modifyElement, if_neg]
  rintro rfl
  exact hne (eq_of_below_siblings hd hc hid hx .refl)

end Stencil.Document
