/-
# Trees in a document

`Tree.numbered` lists the nodes of a tree; this module says what it means for a document that such
a list stands in its table.  `d.HoldsAll parent start ts` is that statement: from `start` on, the
table has the nodes of the trees `ts`, from the top down and from left to right, under `parent`.

Three facts follow.

* The trees at the numbers of the top nodes are `ts` again (`HoldsAll.map_tree`).
* Each of the new nodes has its links in order: its children name it as their parent, and its
  parent, which is `parent` or one of the new nodes, has it among its children (`HoldsAll.linked`).
* A document stays well-formed when trees are grafted into it, that is when it holds them behind its
  old nodes and the row of one node names them (`Grafted.wellFormed`).
-/
import Stencil.Proofs.Document.Shape

namespace Stencil

/-! ## 1. Sizes and numbers -/

namespace Tree

theorem size_pos : ∀ t : Tree, 0 < t.size
  | .node _ _ => Nat.succ_pos _

theorem size_node (kind : NodeKind) (children : List Tree) :
    (node kind children).size = sizeAll children + 1 := rfl

@[simp] theorem sizeAll_nil : sizeAll [] = 0 := rfl

@[simp] theorem sizeAll_cons (t : Tree) (rest : List Tree) :
    sizeAll (t :: rest) = t.size + sizeAll rest := rfl

mutual

theorem length_numbered (parent start : NodeId) :
    ∀ t : Tree, (numbered parent start t).length = t.size
  | .node kind children => by
    rw [numbered, List.length_cons, length_numberedAll start (start + 1) children, size_node]

theorem length_numberedAll (parent start : NodeId) :
    ∀ ts : List Tree, (numberedAll parent start ts).length = sizeAll ts
  | [] => rfl
  | t :: rest => by
    rw [numberedAll, List.length_append, length_numbered parent start t,
      length_numberedAll parent (start + t.size) rest, sizeAll_cons]

end

/-- The numbers of the top nodes lie within the numbers of all. -/
theorem bounds_of_mem_topIds {start c : Nat} {ts : List Tree} (h : c ∈ topIds start ts) :
    start ≤ c ∧ c < start + sizeAll ts := by
  induction ts generalizing start with
  | nil => simp [topIds] at h
  | cons t rest ih =>
    have hpos := t.size_pos
    rw [sizeAll_cons]
    rcases List.mem_cons.mp h with rfl | h
    · omega
    · have := ih h
      omega

theorem nodup_topIds (start : Nat) (ts : List Tree) : (topIds start ts).Nodup := by
  induction ts generalizing start with
  | nil => exact List.nodup_nil
  | cons t rest ih =>
    refine List.nodup_cons.mpr ⟨fun h => ?_, ih _⟩
    have hpos := t.size_pos
    have := bounds_of_mem_topIds h
    omega

end Tree

namespace Document

open Stencil.Tree

variable {d e : Document}

/-! ## 2. The nodes of trees in a table -/

mutual

/-- From `id` on, the table has the nodes of a tree under `parent`. -/
def Holds (d : Document) (parent id : NodeId) : Tree → Prop
  | .node kind children =>
    d.node? id = some ⟨kind, some parent, topIds (id + 1) children⟩ ∧
      d.HoldsAll id (id + 1) children

/-- From `start` on, the table has the nodes of the trees on a list under `parent`. -/
def HoldsAll (d : Document) (parent start : NodeId) : List Tree → Prop
  | [] => True
  | t :: rest => d.Holds parent start t ∧ d.HoldsAll parent (start + t.size) rest

end

mutual

/-- A table that has the numbered nodes of a tree holds the tree. -/
theorem holds_of_node? {parent : NodeId} {start : Nat} : ∀ {t : Tree},
    (∀ i, i < t.size → d.node? (start + i) = (numbered parent start t)[i]?) →
      d.Holds parent start t
  | .node kind children, h => by
    refine ⟨h 0 (size_pos _), holdsAll_of_node? fun i hi => ?_⟩
    have hnode := h (i + 1) (by rw [size_node]; omega)
    rw [numbered, List.getElem?_cons_succ] at hnode
    rw [Nat.add_right_comm, Nat.add_assoc, hnode]

/-- A table that has the numbered nodes of trees holds the trees. -/
theorem holdsAll_of_node? {parent : NodeId} {start : Nat} : ∀ {ts : List Tree},
    (∀ i, i < sizeAll ts → d.node? (start + i) = (numberedAll parent start ts)[i]?) →
      d.HoldsAll parent start ts
  | [], _ => trivial
  | t :: rest, h => by
    refine ⟨holds_of_node? fun i hi => ?_, holdsAll_of_node? fun i hi => ?_⟩
    · rw [h i (by rw [sizeAll_cons]; omega), numberedAll,
        List.getElem?_append_left (by rw [length_numbered]; exact hi)]
    · have hnode := h (t.size + i) (by rw [sizeAll_cons]; omega)
      rw [numberedAll, List.getElem?_append_right (by rw [length_numbered]; omega),
        length_numbered, Nat.add_sub_cancel_left] at hnode
      rw [Nat.add_assoc, hnode]

end

mutual

/-- Whether a table holds a tree is settled by the entries in question. -/
theorem Holds.congr {parent : NodeId} {start : Nat} : ∀ {t : Tree}, d.Holds parent start t →
    (∀ x : Nat, start ≤ x → x < start + t.size → e.node? x = d.node? x) → e.Holds parent start t
  | .node kind children, ⟨hnode, hall⟩, h => by
    rw [size_node] at h
    exact ⟨by rw [h start (Nat.le_refl _) (by omega), hnode],
      hall.congr fun x hx hlt => h x (by omega) (by omega)⟩

theorem HoldsAll.congr {parent : NodeId} {start : Nat} : ∀ {ts : List Tree},
    d.HoldsAll parent start ts →
    (∀ x : Nat, start ≤ x → x < start + sizeAll ts → e.node? x = d.node? x) →
      e.HoldsAll parent start ts
  | [], _, _ => trivial
  | t :: rest, ⟨ht, hrest⟩, h => by
    rw [sizeAll_cons] at h
    exact ⟨ht.congr fun x hx hlt => h x hx (by omega),
      hrest.congr fun x hx hlt => h x (by omega) (by omega)⟩

end

theorem Holds.parent?_eq {parent id : NodeId} {t : Tree} (h : d.Holds parent id t) :
    d.parent? id = some parent := by
  cases t with
  | node kind children => exact parent?_of_node? h.1

/-- The top nodes have the parent that they were put under. -/
theorem HoldsAll.parent?_eq {parent start c : NodeId} {ts : List Tree}
    (h : d.HoldsAll parent start ts) (hc : c ∈ topIds start ts) : d.parent? c = some parent := by
  induction ts generalizing start with
  | nil => simp [topIds] at hc
  | cons t rest ih =>
    rcases List.mem_cons.mp hc with rfl | hc
    · exact h.1.parent?_eq
    · exact ih h.2 hc

mutual

/-- The tree at the number of a tree's top node is the tree. -/
theorem Holds.tree_eq (hd : d.WellFormed) {parent id : NodeId} : ∀ {t : Tree},
    d.Holds parent id t → d.tree id = t
  | .node kind children, ⟨hnode, hall⟩ => by
    rw [Document.tree_eq hd, kind_of_node? hnode, children_of_node? hnode, hall.map_tree hd]

/-- **The trees at the numbers of the top nodes are the trees that were numbered.** -/
theorem HoldsAll.map_tree (hd : d.WellFormed) {parent start : NodeId} : ∀ {ts : List Tree},
    d.HoldsAll parent start ts → (topIds start ts).map d.tree = ts
  | [], _ => rfl
  | t :: rest, ⟨ht, hrest⟩ => by
    rw [topIds, List.map_cons, ht.tree_eq hd, hrest.map_tree hd]

end

/-! ## 3. The links of the new nodes -/

/-- The links of a node are in order: downwards to its children, and upwards either to `parent`, for
a node on `tops`, or to a node from `start` on that has it for a child. -/
structure Linked (d : Document) (parent start : Nat) (tops : List NodeId) (x : Nat) : Prop where
  nodup : (d.children x).Nodup
  down : ∀ c ∈ d.children x, d.parent? c = some x ∧ x < c
  up : (d.parent? x = some parent ∧ x ∈ tops) ∨
    ∃ q : Nat, d.parent? x = some q ∧ start ≤ q ∧ q < x ∧ x ∈ d.children q

theorem Linked.mono {parent start start' x : Nat} {tops tops' : List NodeId}
    (h : d.Linked parent start' tops' x) (hstart : start ≤ start')
    (htops : ∀ c ∈ tops', c ∈ tops) : d.Linked parent start tops x where
  nodup := h.nodup
  down := h.down
  up := by
    rcases h.up with ⟨hp, hx⟩ | ⟨q, hq, hle, hlt, hx⟩
    · exact Or.inl ⟨hp, htops _ hx⟩
    · exact Or.inr ⟨q, hq, Nat.le_trans hstart hle, hlt, hx⟩

mutual

theorem Holds.linked {parent start : Nat} : ∀ {t : Tree}, d.Holds parent start t →
    ∀ x : Nat, start ≤ x → x < start + t.size → d.Linked parent start [start] x
  | .node kind children, ⟨hnode, hall⟩, x, hle, hlt => by
    rw [size_node] at hlt
    have hchildren := children_of_node? hnode
    rcases Nat.eq_or_lt_of_le hle with rfl | hlt'
    · refine ⟨hchildren ▸ nodup_topIds _ _, fun c hc => ?_,
        Or.inl ⟨parent?_of_node? hnode, List.mem_singleton.mpr rfl⟩⟩
      rw [hchildren] at hc
      have := (bounds_of_mem_topIds hc).1
      exact ⟨hall.parent?_eq hc, by omega⟩
    · have hx := hall.linked x (by omega) (by omega)
      refine ⟨hx.nodup, hx.down, Or.inr ?_⟩
      -- a top node among the children hangs at the node itself, which is one of the new ones
      rcases hx.up with ⟨hp, htop⟩ | ⟨q, hq, hle', hlt'', hmem⟩
      · exact ⟨start, hp, Nat.le_refl _, hlt', hchildren ▸ htop⟩
      · exact ⟨q, hq, by omega, hlt'', hmem⟩

/-- **The links of all new nodes are in order.** -/
theorem HoldsAll.linked {parent start : Nat} : ∀ {ts : List Tree}, d.HoldsAll parent start ts →
    ∀ x : Nat, start ≤ x → x < start + sizeAll ts → d.Linked parent start (topIds start ts) x
  | [], _, x, hle, hlt => absurd hlt (Nat.not_lt.mpr hle)
  | t :: rest, ⟨ht, hrest⟩, x, hle, hlt => by
    rw [sizeAll_cons] at hlt
    rcases Nat.lt_or_ge x (start + t.size) with h | h
    · refine (ht.linked x hle h).mono (Nat.le_refl _) fun c hc => ?_
      rw [List.mem_singleton.mp hc]
      exact List.mem_cons_self
    · exact (hrest.linked x h (by omega)).mono (by omega)
        fun c hc => List.mem_cons_of_mem _ hc

end

/-! ## 4. Grafts

Every change of the shape of a document is one of a kind: some children of a node are taken out,
and new trees are put under that node, numbered from the size of the table on. -/

/-- `e` is `d` with the children of `p` that are `gone` taken out and the trees `ts` put under `p`.
In which order the children of `p` stand is left open. -/
structure Grafted (d e : Document) (p : NodeId) (gone : NodeId → Prop) (ts : List Tree) : Prop where
  lt_size : p < d.size
  size_eq : e.size = d.size + sizeAll ts
  holdsAll : e.HoldsAll p d.size ts
  kind_eq : ∀ {x : Nat}, x < d.size → e.kind x = d.kind x
  gone_child : ∀ {x : NodeId}, gone x → d.parent? x = some p
  parent?_gone : ∀ {x : NodeId}, gone x → e.parent? x = none
  parent?_kept : ∀ {x : Nat}, x < d.size → ¬ gone x → e.parent? x = d.parent? x
  children_ne : ∀ {x : Nat}, x < d.size → x ≠ p → e.children x = d.children x
  mem_children : ∀ {c : NodeId},
    c ∈ e.children p ↔ c ∈ topIds d.size ts ∨ (c ∈ d.children p ∧ ¬ gone c)
  nodup_children : (e.children p).Nodup

namespace Grafted

variable {p : NodeId} {gone : NodeId → Prop} {ts : List Tree}

theorem not_gone_root (h : Grafted d e p gone ts) (hd : d.WellFormed) : ¬ gone root := by
  intro hg
  have := h.gone_child hg
  rw [hd.parent?_root] at this
  exact absurd this (by simp)

/-- What a node of the old table has for its parent, it had before. -/
theorem parent?_old (h : Grafted d e p gone ts) {x q : Nat} (hx : x < d.size)
    (hq : e.parent? x = some q) : d.parent? x = some q ∧ ¬ gone x := by
  have hg : ¬ gone x := fun hg => by
    rw [h.parent?_gone hg] at hq
    exact absurd hq (by simp)
  exact ⟨h.parent?_kept hx hg ▸ hq, hg⟩

theorem parent?_of_mem_children (h : Grafted d e p gone ts) (hd : d.WellFormed) {q c : Nat}
    (hc : c ∈ e.children q) : e.parent? c = some q := by
  by_cases hqp : q = p
  · subst hqp
    rcases h.mem_children.mp hc with htop | ⟨hold, hg⟩
    · exact h.holdsAll.parent?_eq htop
    · rw [h.parent?_kept (hd.lt_size_of_mem_children hold) hg]
      exact hd.mem_children_iff.mp hold
  · rcases Nat.lt_or_ge q d.size with hq | hq
    · rw [h.children_ne hq hqp] at hc
      have hg : ¬ gone c := fun hg => hqp <| by
        have := h.gone_child hg
        rw [hd.mem_children_iff.mp hc] at this
        exact Option.some.inj this
      rw [h.parent?_kept (hd.lt_size_of_mem_children hc) hg]
      exact hd.mem_children_iff.mp hc
    · have hesize := h.size_eq
      have hqlt : q < e.size := by
        rcases Nat.lt_or_ge q e.size with hlt | hge
        · exact hlt
        · rw [children_eq_nil_of_size_le hge] at hc
          exact absurd hc (by simp)
      exact ((h.holdsAll.linked q hq (by omega)).down c hc).1

theorem mem_children_of_parent? (h : Grafted d e p gone ts) (hd : d.WellFormed) {q c : Nat}
    (hc : e.parent? c = some q) : c ∈ e.children q := by
  have hclt : c < e.size := lt_size_of_parent? hc
  have hesize := h.size_eq
  rcases Nat.lt_or_ge c d.size with hlt | hge
  · obtain ⟨hold, hg⟩ := h.parent?_old hlt hc
    have hmem := hd.mem_children_iff.mpr hold
    by_cases hqp : q = p
    · subst hqp
      exact h.mem_children.mpr (Or.inr ⟨hmem, hg⟩)
    · rw [h.children_ne (Nat.lt_trans (hd.parent_lt hold) hlt) hqp]
      exact hmem
  · rcases (h.holdsAll.linked c hge (by omega)).up with ⟨hp, htop⟩ | ⟨q', hq', -, -, hmem⟩
    · rw [hp] at hc
      obtain rfl := Option.some.inj hc
      exact h.mem_children.mpr (Or.inl htop)
    · rw [hq'] at hc
      obtain rfl := Option.some.inj hc
      exact hmem

theorem nodup_children_all (h : Grafted d e p gone ts) (hd : d.WellFormed) (q : Nat) :
    (e.children q).Nodup := by
  have hesize := h.size_eq
  by_cases hqp : q = p
  · exact hqp ▸ h.nodup_children
  · rcases Nat.lt_or_ge q d.size with hq | hq
    · exact h.children_ne hq hqp ▸ hd.nodup_children q
    · rcases Nat.lt_or_ge q e.size with hlt | hge
      · exact (h.holdsAll.linked q hq (by omega)).nodup
      · exact children_eq_nil_of_size_le hge ▸ List.nodup_nil

theorem parent_lt (h : Grafted d e p gone ts) (hd : d.WellFormed) {q c : Nat}
    (hc : e.parent? c = some q) : q < c := by
  have hclt : c < e.size := lt_size_of_parent? hc
  have hesize := h.size_eq
  rcases Nat.lt_or_ge c d.size with hlt | hge
  · exact hd.parent_lt (h.parent?_old hlt hc).1
  · rcases (h.holdsAll.linked c hge (by omega)).up with ⟨hp, -⟩ | ⟨q', hq', -, hlt, -⟩
    · rw [hp] at hc
      obtain rfl := Option.some.inj hc
      exact Nat.lt_of_lt_of_le h.lt_size hge
    · rw [hq'] at hc
      obtain rfl := Option.some.inj hc
      exact hlt

/-- **A graft keeps a document well-formed.** -/
theorem wellFormed (h : Grafted d e p gone ts) (hd : d.WellFormed) : e.WellFormed := by
  have hpos := hd.size_pos
  have hesize := h.size_eq
  refine ⟨by omega, ?_, ?_, ?_, ?_⟩
  · exact (h.parent?_kept hpos (h.not_gone_root hd)).trans hd.parent?_root
  · intro (q : Nat) (c : Nat)
    exact ⟨h.parent?_of_mem_children hd, h.mem_children_of_parent? hd⟩
  · intro (q : Nat)
    exact h.nodup_children_all hd q
  · intro (q : Nat) (c : Nat) hc
    exact h.parent_lt hd hc

/-- The trees that were put under the node stand at the new numbers. -/
theorem map_tree_topIds (h : Grafted d e p gone ts) (hd : d.WellFormed) :
    (topIds d.size ts).map e.tree = ts :=
  h.holdsAll.map_tree (h.wellFormed hd)

end Grafted

end Document

end Stencil
