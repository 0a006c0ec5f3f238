/-
# White space in markup

A layout may change the white space of texts, and nothing else.  This is said of the markup of a
document in three ways.

* The markup of trees is a row of strips (`Tree.strips`).  A strip is a text that stands in the
  trees, or it is the same in every layout.  Whether an element is printed with an end tag is
  decided by its children, before any text is trimmed.
* Without white space, the markup is the same in every layout (`Tree.solid_print`): trimming a text
  takes blanks off its ends and puts at most a space back at each (`Layout.solid_compacted`).
* Trimming is done once and for all.  `Document.trimmed` trims the texts in the document itself, and
  takes out those of which nothing is left; its markup, in any layout, is the compact markup of the
  document (`Document.print_trimmed`).  Here it does matter that children are counted: an element
  that may do without an end tag must not lose all that was in it (`Document.KeepsContent`).
-/
import Stencil.Proofs.Document.Navigation
import Stencil.Proofs.Markup.Trimming

namespace Stencil

/-! ## 1. Texts without white space -/

namespace Text

/-- The text without its white space. -/
def solid (t : Text) : Text := t.filter fun c => !isBlank c

@[simp] theorem solid_append (s t : Text) : solid (s ++ t) = solid s ++ solid t :=
  List.filter_append ..

theorem solid_of_blank {t : Text} (h : ∀ c ∈ t, isBlank c = true) : solid t = [] := by
  refine List.filter_eq_nil_iff.mpr fun c hc => ?_
  rw [h c hc]
  exact Bool.false_ne_true

/-- A text of which trimming leaves nothing is white space. -/
theorem isBlank_of_trim {t : Text} (h : trim t = []) : ∀ c ∈ t, isBlank c = true := by
  have hfirst := head?_dropWhile_all isBlank t
  rw [trim, dropEndWhile, List.reverse_eq_nil_iff, List.dropWhile_eq_nil_iff] at h
  cases hrest : t.dropWhile isBlank with
  | nil => exact List.dropWhile_eq_nil_iff.mp hrest
  | cons c rest =>
    have hblank := h c (by simp [hrest])
    rw [hrest, List.head?_cons, Option.all_some, hblank] at hfirst
    exact absurd hfirst Bool.false_ne_true

end Text

namespace Layout

/-- **Trimming changes white space only.** -/
theorem solid_compacted (t : Text) : Text.solid (compacted t) = Text.solid t := by
  by_cases hcore : Text.trim t = []
  · rw [compacted_of_trim hcore, Text.solid_of_blank (Text.isBlank_of_trim hcore)]
    rfl
  · obtain ⟨before, behind, h⟩ := Text.exists_enclosed hcore
    have hspace : ∀ edge, Text.solid (spaceFor edge) = [] := by
      intro edge
      rcases spaceFor_cases edge with hnone | hsome
      · rw [hnone]
        rfl
      · rw [hsome]
        decide
    calc Text.solid (compacted t)
        = Text.solid (Text.trim t) := by
          rw [h.compacted_eq, Text.solid_append, Text.solid_append, hspace, hspace,
            List.append_nil, List.nil_append]
      _ = Text.solid (before ++ Text.trim t ++ behind) := by
          rw [Text.solid_append, Text.solid_append, Text.solid_of_blank h.before_blank,
            Text.solid_of_blank h.behind_blank, List.append_nil, List.nil_append]
      _ = Text.solid t := by rw [← h.text_eq]

theorem solid_apply (layout : Layout) (t : Text) : Text.solid (layout.apply t) = Text.solid t := by
  cases layout with
  | verbatim => rfl
  | compact => exact solid_compacted t

end Layout

/-! ## 2. Strips of markup -/

/-- A strip of markup. -/
inductive Strip where
  /-- Is the same in every layout. -/
  | fixed (t : Text)
  /-- A text, which a layout may trim. -/
  | text (t : Text)

namespace Strip

/-- The strip as it is printed. -/
def print (layout : Layout) : Strip → Text
  | fixed t => t
  | text t => layout.apply t

/-- The strips of an element around those of its children; `childless` tells that there are none. -/
def around (e : Element) (childless : Bool) (inner : List Strip) : List Strip :=
  if childless && e.selfClosing then [fixed (e.printOpening ++ ['/', '>'])]
  else if childless && e.isVoid then [fixed (e.printOpening ++ ['>'])]
  else fixed (e.printOpening ++ ['>']) :: (inner ++ [fixed e.printClosing])

theorem solid_print (layout layout' : Layout) (s : Strip) :
    Text.solid (s.print layout) = Text.solid (s.print layout') := by
  cases s with
  | fixed t => rfl
  | text t => exact (layout.solid_apply t).trans (layout'.solid_apply t).symm

theorem flatMap_around (layout : Layout) (e : Element) (childless : Bool) (inner : List Strip) :
    (around e childless inner).flatMap (print layout) =
      e.printAround childless (inner.flatMap (print layout)) := by
  unfold around Element.printAround
  split
  · exact List.flatMap_singleton ..
  · split
    · exact List.flatMap_singleton ..
    · simp [print]

/-- The texts in the strips of an element are those of its children. -/
theorem of_text_mem_around {e : Element} {childless : Bool} {inner : List Strip} {t : Text}
    (h : text t ∈ around e childless inner) : text t ∈ inner := by
  unfold around at h
  split at h
  · exact absurd (List.mem_singleton.mp h) nofun
  · split at h
    · exact absurd (List.mem_singleton.mp h) nofun
    · simpa using h

end Strip

namespace Tree

mutual

/-- The strips that the markup of a tree is made of. -/
def strips : Tree → List Strip
  | node (.element e) children => Strip.around e children.isEmpty (stripsAll children)
  | node .fragment children => stripsAll children
  | node (.text t) _ => [.text t]
  | node (.doctype t) _ =>
    [.fixed (['<', '!', 'D', 'O', 'C', 'T', 'Y', 'P', 'E', ' '] ++ t ++ ['>'])]

/-- The strips that the markup of trees is made of. -/
def stripsAll : List Tree → List Strip
  | [] => []
  | t :: rest => strips t ++ stripsAll rest

end

mutual

/-- **The markup of a tree is its strips**, in every layout the same ones. -/
theorem print_eq_strips (layout : Layout) :
    ∀ t : Tree, t.print layout = t.strips.flatMap (Strip.print layout)
  | node (.element e) children => by
    rw [print, strips, Strip.flatMap_around, printAll_eq_strips layout children]
  | node .fragment children => printAll_eq_strips layout children
  | node (.text _) _ => (List.flatMap_singleton ..).symm
  | node (.doctype _) _ => (List.flatMap_singleton ..).symm

theorem printAll_eq_strips (layout : Layout) :
    ∀ ts : List Tree, printAll layout ts = (stripsAll ts).flatMap (Strip.print layout)
  | [] => rfl
  | t :: rest => by
    rw [printAll, stripsAll, List.flatMap_append, print_eq_strips layout t,
      printAll_eq_strips layout rest]

end

mutual

/-- The texts in the strips of a tree stand in the tree. -/
theorem exists_of_text_mem_strips {s : Text} : ∀ {t : Tree}, .text s ∈ t.strips →
    ∃ u ∈ t.subtrees, u.kind = .text s
  | node (.element _) children, h => by
    obtain ⟨u, hu, hkind⟩ := exists_of_text_mem_stripsAll (Strip.of_text_mem_around h)
    exact ⟨u, List.mem_cons_of_mem _ hu, hkind⟩
  | node .fragment _, h => by
    obtain ⟨u, hu, hkind⟩ := exists_of_text_mem_stripsAll h
    exact ⟨u, List.mem_cons_of_mem _ hu, hkind⟩
  | node (.text _) _, h => by
    obtain rfl := Strip.text.inj (List.mem_singleton.mp h)
    exact ⟨_, List.mem_cons_self, rfl⟩
  | node (.doctype _) _, h => absurd (List.mem_singleton.mp h) nofun

theorem exists_of_text_mem_stripsAll {s : Text} : ∀ {ts : List Tree}, .text s ∈ stripsAll ts →
    ∃ u ∈ subtreesAll ts, u.kind = .text s
  | t :: rest, h => by
    rw [subtreesAll_cons]
    rcases List.mem_append.mp h with h | h
    · obtain ⟨u, hu, hkind⟩ := exists_of_text_mem_strips h
      exact ⟨u, List.mem_append_left _ hu, hkind⟩
    · obtain ⟨u, hu, hkind⟩ := exists_of_text_mem_stripsAll h
      exact ⟨u, List.mem_append_right _ hu, hkind⟩

end

/-- **Without white space the markup is the same in every layout.** -/
theorem solid_print (layout layout' : Layout) (t : Tree) :
    Text.solid (t.print layout) = Text.solid (t.print layout') := by
  have hstrips : ∀ strips : List Strip, Text.solid (strips.flatMap (Strip.print layout)) =
      Text.solid (strips.flatMap (Strip.print layout')) := by
    intro strips
    induction strips with
    | nil => rfl
    | cons s strips ih =>
      rw [List.flatMap_cons, List.flatMap_cons, Text.solid_append, Text.solid_append, ih,
        Strip.solid_print layout layout']
  rw [print_eq_strips, print_eq_strips, hstrips]

end Tree

/-! ## 3. Texts trimmed in their place -/

/-- The node with its text trimmed, if it is a text. -/
def NodeKind.trimmed : NodeKind → NodeKind
  | text t => text (Layout.compacted t)
  | kind => kind

/-- Nothing is left of the node when it is trimmed. -/
def NodeKind.vanishes (kind : NodeKind) : Bool := kind.trimmed == .text []

/-- What vanishes prints nothing when it is trimmed. -/
theorem Tree.print_of_vanishes {t : Tree} (h : t.kind.vanishes = true) : t.print .compact = [] := by
  obtain ⟨kind, children⟩ := t
  cases kind with
  | text t => exact NodeKind.text.inj (beq_iff_eq.mp h)
  | _ => exact absurd (beq_iff_eq.mp h) nofun

/-- Whether there are children matters only for an element that may do without an end tag. -/
theorem Element.printAround_congr {e : Element} {childless childless' : Bool}
    (h : e.isVoid = true ∨ e.selfClosing = true → childless = childless') (inner : Text) :
    e.printAround childless inner = e.printAround childless' inner := by
  unfold printAround
  cases hvoid : e.isVoid <;> cases hclosing : e.selfClosing <;> simp_all

namespace Document

variable {d : Document}

/-- The entry with its text trimmed, without children of which nothing is left. -/
def trimmedNode (d : Document) (n : Node) : Node where
  kind := n.kind.trimmed
  parent := if n.kind.vanishes then none else n.parent
  children := n.children.filter fun c => !(d.kind c).vanishes

/-- The document with its texts trimmed.  Those of which nothing is left are taken out. -/
def trimmed (d : Document) : Document := ⟨d.nodes.map d.trimmedNode⟩

@[simp] theorem size_trimmed (d : Document) : d.trimmed.size = d.size := Array.size_map

theorem node?_trimmed (d : Document) (x : NodeId) :
    d.trimmed.node? x = (d.node? x).map d.trimmedNode := Array.getElem?_map

@[simp] theorem kind_trimmed (d : Document) (x : NodeId) :
    d.trimmed.kind x = (d.kind x).trimmed := by
  rw [kind, kind, node?_trimmed]
  cases d.node? x <;> rfl

@[simp] theorem children_trimmed (d : Document) (x : NodeId) :
    d.trimmed.children x = (d.children x).filter fun c => !(d.kind c).vanishes := by
  rw [children, children, node?_trimmed]
  cases d.node? x <;> rfl

theorem parent?_trimmed (d : Document) (x : NodeId) :
    d.trimmed.parent? x = if (d.kind x).vanishes then none else d.parent? x := by
  rw [parent?, parent?, kind, node?_trimmed]
  cases d.node? x <;> rfl

/-- A document stays well-formed when its texts are trimmed. -/
theorem WellFormed.trimmed (hd : d.WellFormed) : d.trimmed.WellFormed where
  size_pos := by
    rw [size_trimmed]
    exact hd.size_pos
  parent?_root := by
    rw [parent?_trimmed, hd.parent?_root]
    exact ite_self _
  mem_children_iff {p c} := by
    rw [children_trimmed, List.mem_filter, hd.mem_children_iff, parent?_trimmed]
    cases (d.kind c).vanishes <;> simp
  nodup_children p := by
    rw [children_trimmed]
    exact (hd.nodup_children p).filter _
  parent_lt {p c} hp := by
    rw [parent?_trimmed] at hp
    split at hp
    · exact absurd hp nofun
    · exact hd.parent_lt hp

/-- No element that may do without an end tag loses all its children when texts are trimmed. -/
def KeepsContent (d : Document) : Prop :=
  ∀ (x : NodeId) (e : Element), d.Below root x → d.kind x = .element e →
    e.isVoid = true ∨ e.selfClosing = true → d.children x ≠ [] → d.trimmed.children x ≠ []

/-- The row is printed without what vanishes. -/
theorem printAll_filter_trimmed (layout : Layout) {row : List NodeId}
    (hrow : ∀ c ∈ row, (d.trimmed.tree c).print layout = (d.tree c).print .compact) :
    Tree.printAll layout ((row.filter fun c => !(d.kind c).vanishes).map d.trimmed.tree) =
      Tree.printAll .compact (row.map d.tree) := by
  induction row with
  | nil => rfl
  | cons c rest ih =>
    have hrest := ih fun c hc => hrow c (List.mem_cons_of_mem _ hc)
    rw [List.map_cons, Tree.printAll]
    cases hvanishes : (d.kind c).vanishes with
    | true =>
      have hnil : (d.tree c).print .compact = [] := by
        refine Tree.print_of_vanishes ?_
        rw [kind_tree, hvanishes]
      rw [List.filter_cons_of_neg (by simp [hvanishes]), hrest, hnil, List.nil_append]
    | false =>
      rw [List.filter_cons_of_pos (by simp [hvanishes]), List.map_cons, Tree.printAll, hrest,
        hrow c List.mem_cons_self]

/-- **The trimmed trees are printed, in any layout, as their trees are printed compactly.** -/
theorem print_tree_trimmed (hd : d.WellFormed) (hkeeps : d.KeepsContent) (layout : Layout)
    {x : NodeId} (hx : d.Below root x) :
    (d.trimmed.tree x).print layout = (d.tree x).print .compact := by
  induction x using hd.induct with
  | step x ih =>
    have hrow := printAll_filter_trimmed layout fun c hc => ih c hc (hx.child hd hc)
    rw [Document.tree_eq hd.trimmed, Document.tree_eq hd, kind_trimmed]
    cases hkind : d.kind x with
    | text t => exact layout.apply_compacted t
    | doctype t => rfl
    | fragment =>
      rw [children_trimmed]
      exact hrow
    | element e =>
      have hchildless : e.isVoid = true ∨ e.selfClosing = true →
          ((d.trimmed.children x).map d.trimmed.tree).isEmpty =
            ((d.children x).map d.tree).isEmpty := by
        intro hbare
        rw [List.isEmpty_map, List.isEmpty_map, Bool.eq_iff_iff, List.isEmpty_iff, List.isEmpty_iff]
        constructor
        · intro hnil
          by_contra hne
          exact hkeeps x e hx hkind hbare hne hnil
        · intro hnil
          rw [children_trimmed, hnil, List.filter_nil]
      calc e.printAround ((d.trimmed.children x).map d.trimmed.tree).isEmpty
            (Tree.printAll layout ((d.trimmed.children x).map d.trimmed.tree))
          = e.printAround ((d.children x).map d.tree).isEmpty
              (Tree.printAll layout ((d.trimmed.children x).map d.trimmed.tree)) :=
            Element.printAround_congr hchildless _
        _ = e.printAround ((d.children x).map d.tree).isEmpty
              (Tree.printAll .compact ((d.children x).map d.tree)) := by
            rw [children_trimmed, hrow]

/-- **Trimming twice is trimming once**, and so is trimming what was printed in full. -/
theorem print_trimmed (hd : d.WellFormed) (hkeeps : d.KeepsContent) (layout : Layout) :
    d.trimmed.print layout = d.print .compact :=
  print_tree_trimmed hd hkeeps layout .refl

/-- A void element that loses its only child loses its end tag with it. -/
example :
    let d := ofTrees [.node (.element { name := ['b', 'r'] }) [.leaf (.text [' '])]]
    d.print .compact = "<br></br>".toList ∧ d.trimmed.print .compact = "<br>".toList := by
  decide +kernel

/-! ## 4. What a layout may change -/

/-- **A layout changes white space of texts, and nothing else.**  The markup of a document is a row
of strips, some of which are texts that stand in the document, and the others are the same in every
layout.  Without white space the two layouts print the same.  And a document whose texts were
trimmed is printed, in any layout, as the document is printed compactly, unless that took all
children from an element that may do without an end tag. -/
theorem compaction_exact {d : Document} (hd : d.WellFormed) :
    (∃ strips : List Strip, (∀ layout, d.print layout = strips.flatMap (Strip.print layout)) ∧
      ∀ t, .text t ∈ strips → ∃ x ∈ d.descendants root, d.kind x = .text t) ∧
    Text.solid (d.print .compact) = Text.solid (d.print .verbatim) ∧
    (d.KeepsContent → d.trimmed.WellFormed ∧
      ∀ layout, d.trimmed.print layout = d.print .compact) := by
  refine ⟨⟨(d.tree root).strips, fun layout => Tree.print_eq_strips layout _, ?_⟩,
    Tree.solid_print _ _ _, fun hkeeps => ⟨hd.trimmed, print_trimmed hd hkeeps⟩⟩
  intro t ht
  obtain ⟨u, hu, hkind⟩ := Tree.exists_of_text_mem_strips ht
  rw [← map_tree_descendants hd, List.mem_map] at hu
  obtain ⟨x, hx, rfl⟩ := hu
  exact ⟨x, hx, (kind_tree d x).symm.trans hkind⟩

/-- A paragraph with ` x` and a line break in it and a text of blanks behind, and a void element
that was given a blank and a text. -/
def spacedSample : Document :=
  ofTrees [.node (.element { name := ['p'] })
    [.leaf (.text [' ', 'x', '\n']), .leaf (.text ['\u00a0', '\n'])],
    .node (.element { name := ['b', 'r'] }) [.leaf (.text [' ']), .leaf (.text ['y'])]]

/-- Both layouts of a document, and the document with its texts trimmed. -/
theorem compaction_spacedSample :
    spacedSample.WellFormed ∧ spacedSample.KeepsContent ∧
    spacedSample.print .verbatim = "<p> x\n\u00a0\n</p><br> y</br>".toList ∧
    spacedSample.print .compact = "<p> x</p><br>y</br>".toList ∧
    Text.solid (spacedSample.print .compact) = Text.solid (spacedSample.print .verbatim) ∧
    spacedSample.trimmed.print .compact = spacedSample.print .compact := by
  have hd : spacedSample.WellFormed := wellFormed_ofTrees _
  have hkeeps : spacedSample.KeepsContent := by
    have hsome : ∀ x < spacedSample.size,
        spacedSample.children x ≠ [] → spacedSample.trimmed.children x ≠ [] := by decide +kernel
    intro x e _ _ _ hne
    by_cases hx : x < spacedSample.size
    · exact hsome x hx hne
    · exact absurd (children_eq_nil_of_size_le (Nat.not_lt.mp hx)) hne
  obtain ⟨-, hsolid, htrimmed⟩ := compaction_exact hd
  exact ⟨hd, hkeeps, by decide +kernel, by decide +kernel, hsolid, (htrimmed hkeeps).2 .compact⟩

end Document

end Stencil
