/-
# Rows of trees

What a walk along the children of a node sees is a row: the children in their order, each with the
tree that stands there.  `d.row p` is that list.  It is all that rendering asks of a document, and
each edit of one child has a plain meaning on it.

* Taking a child out takes its entry out (`row_detach`).
* Changing the element at a child changes the top of the tree in its entry (`row_modifyElement`).
* Putting trees in the place of a child puts entries with these trees in the place of its entry
  (`row_replace`).
* A change below a child changes the tree in its entry (`EditedBelow.row_up`).

All four leave a well-formed document in which nothing but what is below `p` has changed:
`EditedBelow d e p` is that statement, and it can be put one after the other and seen from further
up.
-/
import Stencil.Proofs.Document.Edits

namespace Stencil

/-- Changes the element at the top of a tree, if it is one. -/
def Tree.mapElement (g : Element → Element) : Tree → Tree
  | .node kind children => .node (kind.mapElement g) children

namespace Document

variable {d e f : Document} {p : NodeId}

/-! ## 1. Rows -/

/-- The children of a node, each with the tree that stands there. -/
def row (d : Document) (p : NodeId) : List (NodeId × Tree) :=
  (d.children p).map fun c => (c, d.tree c)

/-- The numbers in a row are the children of the node. -/
@[simp] theorem map_fst_row (d : Document) (p : NodeId) :
    (d.row p).map Prod.fst = d.children p := by
  simp [row, Function.comp_def]

@[simp] theorem map_snd_row (d : Document) (p : NodeId) :
    (d.row p).map Prod.snd = (d.children p).map d.tree := by
  simp [row, Function.comp_def]

theorem trees_eq_map_row (d : Document) : d.trees = (d.row root).map Prod.snd :=
  (map_snd_row d root).symm

theorem mem_row {c : NodeId} {t : Tree} :
    (c, t) ∈ d.row p ↔ c ∈ d.children p ∧ d.tree c = t := by
  constructor
  · intro h
    obtain ⟨x, hx, heq⟩ := List.mem_map.mp h
    obtain ⟨rfl, rfl⟩ := Prod.mk.inj heq
    exact ⟨hx, rfl⟩
  · rintro ⟨hc, rfl⟩
    exact List.mem_map.mpr ⟨c, hc, rfl⟩

section Split

variable {before behind : List (NodeId × Tree)} {c : NodeId} {t : Tree}

/-- The children, where the row is known to fall into parts. -/
theorem children_of_row (hrow : d.row p = before ++ (c, t) :: behind) :
    d.children p = before.map Prod.fst ++ c :: behind.map Prod.fst := by
  rw [← map_fst_row, hrow, List.map_append, List.map_cons]

theorem mem_children_of_row (hrow : d.row p = before ++ (c, t) :: behind) :
    c ∈ d.children p := by
  simp [children_of_row hrow]

theorem tree_of_row (hrow : d.row p = before ++ (c, t) :: behind) : d.tree c = t :=
  (mem_row.mp (by simp [hrow] : (c, t) ∈ d.row p)).2

theorem kind_of_row (hrow : d.row p = before ++ (c, t) :: behind) : d.kind c = t.kind := by
  rw [← tree_of_row hrow, kind_tree]

/-- The element at a node is read off the tree in its entry. -/
theorem element?_of_row (hrow : d.row p = before ++ (c, t) :: behind) :
    d.element? c = t.kind.element? := by
  rw [element?, kind_of_row hrow]

theorem mem_row_of_beside (hrow : d.row p = before ++ (c, t) :: behind) {x : NodeId × Tree}
    (hx : x ∈ before ∨ x ∈ behind) : x ∈ d.row p := by
  rw [hrow]
  rcases hx with hx | hx <;> simp [hx]

/-- The number of an entry stands nowhere else in the row. -/
theorem ne_of_mem_row (hd : d.WellFormed) (hrow : d.row p = before ++ (c, t) :: behind)
    {x : NodeId × Tree} (hx : x ∈ before ∨ x ∈ behind) : x.1 ≠ c := by
  have hnodup := hd.nodup_children p
  rw [children_of_row hrow, List.nodup_append] at hnodup
  obtain ⟨-, hbehind, hdisjoint⟩ := hnodup
  intro heq
  rcases hx with hx | hx
  · exact hdisjoint x.1 (List.mem_map_of_mem hx) c List.mem_cons_self heq
  · exact (List.nodup_cons.mp hbehind).1 (heq ▸ List.mem_map_of_mem hx)

/-- The index behind the first part is that of the entry there. -/
theorem getElem?_children_of_row (hrow : d.row p = before ++ (c, t) :: behind) :
    (d.children p)[before.length]? = some c := by
  rw [children_of_row hrow]
  simp

/-- Behind the last entry there is no child. -/
theorem getElem?_children_end (hrow : d.row p = before) :
    (d.children p)[before.length]? = none := by
  rw [← map_fst_row, hrow]
  simp

theorem laterSiblings_of_row (hd : d.WellFormed) (hrow : d.row p = before ++ (c, t) :: behind) :
    d.laterSiblings c = behind.map Prod.fst := by
  have hchildren := children_of_row hrow
  have hskip : ∀ x ∈ before.map Prod.fst, (x != c) = true := by
    intro x hx
    obtain ⟨y, hy, rfl⟩ := List.mem_map.mp hx
    exact bne_iff_ne.mpr (ne_of_mem_row hd hrow (Or.inl hy))
  rw [laterSiblings, hd.mem_children_iff.mp (mem_children_of_row hrow)]
  simp only
  rw [hchildren, List.dropWhile_append_of_pos hskip]
  simp

/-- **The elements behind an entry**, by the trees in the row. -/
theorem laterElements_of_row (hd : d.WellFormed) (hrow : d.row p = before ++ (c, t) :: behind) :
    d.laterElements c =
      (behind.filter fun x => x.2.kind.element?.isSome).map Prod.fst := by
  rw [laterElements, laterSiblings_of_row hd hrow, List.filter_map]
  refine congrArg _ (List.filter_congr fun x hx => ?_)
  obtain ⟨pre, post, rfl⟩ := List.append_of_mem hx
  have hrow' : d.row p = (before ++ (c, t) :: pre) ++ (x.1, x.2) :: post := by simp [hrow]
  rw [Function.comp_apply, element?_of_row hrow']

end Split

/-- **A row is known by its numbers and by its trees.** -/
theorem row_eq {entries : List (NodeId × Tree)} (hids : d.children p = entries.map Prod.fst)
    (htrees : ∀ x ∈ entries, d.tree x.1 = x.2) : d.row p = entries := by
  rw [row, hids, List.map_map]
  conv_rhs => rw [← List.map_id entries]
  refine List.map_congr_left fun x hx => ?_
  rw [Function.comp_apply, htrees x hx]
  rfl

/-! ## 2. Edits below a node -/

/-- `e` is a well-formed document that differs from `d` only below `p`. -/
structure EditedBelow (d e : Document) (p : NodeId) : Prop extends ChangedBelow d e p where
  wellFormed : e.WellFormed

namespace EditedBelow

theorem refl (hd : d.WellFormed) (p : NodeId) : EditedBelow d d p :=
  ⟨ChangedBelow.refl d p, hd⟩

theorem trans (h : EditedBelow d e p) (h' : EditedBelow e f p) (hd : d.WellFormed) :
    EditedBelow d f p :=
  ⟨h.toChangedBelow.trans h'.toChangedBelow hd, h'.wellFormed⟩

theorem up (h : EditedBelow d e p) (hd : d.WellFormed) {q : NodeId} (hq : p ∈ d.children q) :
    EditedBelow d e q :=
  ⟨h.toChangedBelow.up hd hq, h.wellFormed⟩

/-- The node itself stays what it is. -/
theorem kind_self (h : EditedBelow d e p) (hp : p < d.size) : e.kind p = d.kind p :=
  h.kind_eq hp (Or.inr rfl)

/-- **An edit below a child changes the tree in its entry only.** -/
theorem row_up {c : NodeId} (h : EditedBelow d e c) (hd : d.WellFormed)
    {before behind : List (NodeId × Tree)} {t : Tree}
    (hrow : d.row p = before ++ (c, t) :: behind) :
    e.row p = before ++ (c, e.tree c) :: behind := by
  have hc := mem_children_of_row hrow
  have hplt : p < d.size := Nat.lt_trans (hd.lt_of_mem_children hc) (hd.lt_size_of_mem_children hc)
  have hbeside : ∀ x, x ∈ before ∨ x ∈ behind → e.tree x.1 = x.2 := by
    intro x hx
    obtain ⟨hchild, htree⟩ := mem_row.mp (mem_row_of_beside hrow hx)
    rw [h.tree_eq hd hc hchild (ne_of_mem_row hd hrow hx), htree]
  refine row_eq ?_ fun x hx => ?_
  · rw [h.children_eq hplt (not_below_of_mem_children hd hc), children_of_row hrow]
    simp
  · rcases List.mem_append.mp hx with hx | hx
    · exact hbeside x (Or.inl hx)
    · rcases List.mem_cons.mp hx with rfl | hx
      · rfl
      · exact hbeside x (Or.inr hx)

end EditedBelow

/-! ## 3. Edits of one child -/

section Child

variable {before behind : List (NodeId × Tree)} {c : NodeId} {t : Tree}

/-- A graft is an edit below its node. -/
theorem Grafted.editedBelow {gone : NodeId → Prop} {ts : List Tree} (h : Grafted d e p gone ts)
    (hd : d.WellFormed) : EditedBelow d e p :=
  ⟨h.changedBelow hd, h.wellFormed hd⟩

theorem parent?_of_row (hd : d.WellFormed) (hrow : d.row p = before ++ (c, t) :: behind) :
    d.parent? c = some p :=
  hd.mem_children_iff.mp (mem_children_of_row hrow)

/-- The entries beside one keep their trees when a graft is made. -/
theorem Grafted.tree_of_mem_row {gone : NodeId → Prop} {ts : List Tree}
    (h : Grafted d e p gone ts) (hd : d.WellFormed) {x : NodeId × Tree} (hx : x ∈ d.row p) :
    e.tree x.1 = x.2 := by
  obtain ⟨hchild, htree⟩ := mem_row.mp hx
  rw [h.tree_eq hd hchild, htree]

theorem editedBelow_detach (hd : d.WellFormed) (hrow : d.row p = before ++ (c, t) :: behind) :
    EditedBelow d (d.detach c) p :=
  (grafted_detach hd (parent?_of_row hd hrow)).editedBelow hd

/-- **A child that is taken out takes its entry with it.** -/
theorem row_detach (hd : d.WellFormed) (hrow : d.row p = before ++ (c, t) :: behind) :
    (d.detach c).row p = before ++ behind := by
  have hgraft := grafted_detach hd (parent?_of_row hd hrow)
  have hother : ∀ l : List (NodeId × Tree), (∀ x ∈ l, x ∈ before ∨ x ∈ behind) →
      (l.map Prod.fst).filter (· != c) = l.map Prod.fst := by
    intro l hl
    refine List.filter_eq_self.mpr fun x hx => ?_
    obtain ⟨y, hy, rfl⟩ := List.mem_map.mp hx
    exact bne_iff_ne.mpr (ne_of_mem_row hd hrow (hl y hy))
  refine row_eq ?_ fun x hx =>
    hgraft.tree_of_mem_row hd (mem_row_of_beside hrow (List.mem_append.mp hx))
  · rw [children_detach hd (parent?_of_row hd hrow), if_pos rfl, children_of_row hrow,
      List.filter_append, List.filter_cons_of_neg (by simp), hother before fun x hx => Or.inl hx,
      hother behind fun x hx => Or.inr hx, List.map_append]

theorem editedBelow_modifyElement (hd : d.WellFormed)
    (hrow : d.row p = before ++ (c, t) :: behind) (g : Element → Element) :
    EditedBelow d (d.modifyElement c g) p :=
  ⟨changedBelow_modifyElement hd (mem_children_of_row hrow) g, hd.modifyElement c g⟩

/-- **A child whose element is changed keeps its entry, and in it what is under the element.** -/
theorem row_modifyElement (hd : d.WellFormed) (hrow : d.row p = before ++ (c, t) :: behind)
    (g : Element → Element) :
    (d.modifyElement c g).row p = before ++ (c, t.mapElement g) :: behind := by
  have hc := mem_children_of_row hrow
  have hbeside : ∀ x, x ∈ before ∨ x ∈ behind → (d.modifyElement c g).tree x.1 = x.2 := by
    intro x hx
    obtain ⟨hchild, htree⟩ := mem_row.mp (mem_row_of_beside hrow hx)
    rw [tree_modifyElement_of_ne hd hc hchild (ne_of_mem_row hd hrow hx), htree]
  refine row_eq ?_ fun x hx => ?_
  · rw [children_modifyElement, children_of_row hrow]
    simp
  · rcases List.mem_append.mp hx with hx | hx
    · exact hbeside x (Or.inl hx)
    · rcases List.mem_cons.mp hx with rfl | hx
      · rw [tree_modifyElement hd, ← tree_of_row hrow, tree_eq hd c]
        rfl
      · exact hbeside x (Or.inr hx)

/-- **Trees that are put in the place of a child stand where its entry stood**, and the answer tells
how many they are. -/
theorem row_replace (hd : d.WellFormed) (hrow : d.row p = before ++ (c, t) :: behind)
    (fragment : Document) :
    ∃ e news, d.replace c fragment = (e, news.length) ∧ EditedBelow d e p ∧
      e.row p = before ++ news ++ behind ∧ news.map Prod.snd = fragment.trees := by
  obtain ⟨e, heq, hgraft, hchildren⟩ := replace_spec hd (children_of_row hrow) fragment
  have htrees := hgraft.map_tree_topIds hd
  let news := (Tree.topIds d.size fragment.trees).map fun x => (x, e.tree x)
  have hfst : news.map Prod.fst = Tree.topIds d.size fragment.trees := by
    simp [news, Function.comp_def]
  have hsnd : news.map Prod.snd = fragment.trees := by
    rw [← htrees]
    simp [news, Function.comp_def]
  refine ⟨e, news, ?_, hgraft.editedBelow hd, row_eq ?_ fun x hx => ?_, hsnd⟩
  · rw [heq, ← hsnd, List.length_map]
  · rw [hchildren]
    simp [hfst]
  · have hold : x ∈ before ∨ x ∈ behind → e.tree x.1 = x.2 := fun hx =>
      hgraft.tree_of_mem_row hd (mem_row_of_beside hrow hx)
    rcases List.mem_append.mp hx with hx | hx
    · rcases List.mem_append.mp hx with hx | hx
      · exact hold (Or.inl hx)
      · obtain ⟨y, -, rfl⟩ := List.mem_map.mp hx
        rfl
    · exact hold (Or.inr hx)

end Child

end Document

end Stencil
