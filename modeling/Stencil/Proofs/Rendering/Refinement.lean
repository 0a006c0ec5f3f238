/-
# Rendering in place

The walk along the children of a node keeps an index into a list that it changes: a visit may take
out the node at the index, any nodes behind it, or put any number of nodes there.  What carries the
walk is that the row of the parent always falls into two parts at the index.  The part before is
done, and the trees in the part behind are what `Siblings.render` still has to do.

`Walks` says this of one visit and of the walk as a whole: the outcome of either is the outcome of
`Siblings.render`, a fault for the same fault, and otherwise a document that was edited below the
parent only and whose row has the rendered trees in it.  A visit to a node that is kept walks along
the children of that node, so the two statements go hand in hand down the levels of a document
(`visitNode_walks`, `visitChildren_walks`), and from there down the levels of components.
-/
import Stencil.Engine
import Stencil.Proofs.Rendering.Chains

namespace Stencil.Render

open Document

variable {l : Library} {expand : Siblings.Expansion} {d : Document} {p : NodeId}

/-! ## 1. What a visit and a walk come to -/

/-- What a visit to the entry behind `before` comes to: the entries `news` in its place, as many as
the visit tells, and behind them what rendering goes on with. -/
def VisitOutcome (l : Library) (expand : Siblings.Expansion) (d : Document) (p : NodeId)
    (before : List (NodeId × Tree)) (t : Tree) (behind : List (NodeId × Tree)) :
    Except RenderFault (Document × Nat) → Prop
  | .error fault => Siblings.render l expand (t :: behind.map Prod.snd) = .error fault
  | .ok (e, left) => EditedBelow d e p ∧ ∃ news behind', left = news.length ∧
      e.row p = before ++ news ++ behind' ∧
      behind'.length ≤ behind.length ∧
      Tree.sizeAll (behind'.map Prod.snd) ≤ Tree.sizeAll (behind.map Prod.snd) ∧
      Siblings.render l expand (t :: behind.map Prod.snd) =
        (Siblings.render l expand (behind'.map Prod.snd)).map (news.map Prod.snd ++ ·)

/-- What a walk from behind `before` on comes to: the entries that are rendered from those that
stood there. -/
def WalkOutcome (l : Library) (expand : Siblings.Expansion) (d : Document) (p : NodeId)
    (before behind : List (NodeId × Tree)) : Except RenderFault Document → Prop
  | .error fault => Siblings.render l expand (behind.map Prod.snd) = .error fault
  | .ok e => EditedBelow d e p ∧ ∃ done, e.row p = before ++ done ∧
      Siblings.render l expand (behind.map Prod.snd) = .ok (done.map Prod.snd)

/-- Visits to entries come to what they should, as long as no more than `bound` nodes are at stake.
-/
def Walks (l : Library) (expand : Siblings.Expansion) (bound : Nat)
    (visit : Document → NodeId → Except RenderFault (Document × Nat)) : Prop :=
  ∀ {d : Document} {p : NodeId} {before behind : List (NodeId × Tree)} {c : NodeId} {t : Tree},
    d.WellFormed → d.row p = before ++ (c, t) :: behind →
      Tree.sizeAll (t :: behind.map Prod.snd) ≤ bound →
        VisitOutcome l expand d p before t behind (visit d c)

/-! ## 2. Walks along the children of a node -/

/-- **A walk comes to what it should if its visits do.** -/
theorem visitChildren_walks {bound : Nat}
    {visit : Document → NodeId → Except RenderFault (Document × Nat)}
    (hvisit : Walks l expand bound visit) {visits : Nat} {before behind : List (NodeId × Tree)}
    (hd : d.WellFormed) (hrow : d.row p = before ++ behind) (hvisits : behind.length ≤ visits)
    (hbound : Tree.sizeAll (behind.map Prod.snd) ≤ bound) :
    WalkOutcome l expand d p before behind (visitChildren visit p visits d before.length) := by
  induction visits generalizing d before behind with
  | zero =>
    obtain rfl : behind = [] := List.length_eq_zero_iff.mp (Nat.le_zero.mp hvisits)
    exact ⟨.refl hd p, [], hrow, Siblings.render_nil⟩
  | succ visits ih =>
    rw [visitChildren]
    cases behind with
    | nil =>
      rw [getElem?_children_end (by simpa using hrow)]
      exact ⟨.refl hd p, [], hrow, Siblings.render_nil⟩
    | cons x behind =>
      obtain ⟨c, t⟩ := x
      rw [getElem?_children_of_row hrow]
      have houtcome := hvisit hd hrow hbound
      dsimp only
      match visit d c, houtcome with
      | .error fault, hfault => exact hfault
      | .ok (e, left), ⟨hedit, news, behind', hleft, hrow', hlength, hsize, hrender⟩ =>
        have hlength' : (before ++ news).length = before.length + left := by
          rw [List.length_append, hleft]
        rw [List.length_cons] at hvisits
        rw [List.map_cons, Tree.sizeAll_cons] at hbound
        have hwalk := ih hedit.wellFormed hrow' (by omega) (by omega)
        rw [hlength'] at hwalk
        dsimp only
        match visitChildren visit p visits e (before.length + left), hwalk with
        | .error fault, hfault =>
          rw [WalkOutcome] at hfault ⊢
          rw [List.map_cons, hrender, hfault]
          rfl
        | .ok f, ⟨hedit', done, hrow'', hdone⟩ =>
          refine ⟨hedit.trans hedit' hd, news ++ done, by rw [hrow'', List.append_assoc], ?_⟩
          rw [List.map_cons, hrender, hdone, List.map_append]
          rfl

/-- The walk along all children of a node. -/
theorem visitChildren_walks_row {bound : Nat}
    {visit : Document → NodeId → Except RenderFault (Document × Nat)}
    (hvisit : Walks l expand bound visit) (hd : d.WellFormed)
    (hbound : Tree.sizeAll ((d.row p).map Prod.snd) ≤ bound) :
    WalkOutcome l expand d p [] (d.row p)
      (visitChildren visit p (d.children p).length d 0) :=
  visitChildren_walks hvisit hd rfl (by simp [row]) hbound

/-! ## 3. Visits -/

/-- The bodies of components, seen as trees, are the given answer to usages. -/
def Answers (bodies : Bodies) (expand : Siblings.Expansion) : Prop :=
  ∀ {d : Document} {id : NodeId} {e : Element} {children : List Tree} (c : Component),
    d.WellFormed → d.tree id = .node (.element e) children →
      (bodies d id c).map Document.trees = expand e children c

/-- The tree at a node whose children were walked along. -/
theorem tree_of_row_eq {e : Document} {kind : NodeKind} {children : List Tree}
    {done : List (NodeId × Tree)} (hedit : EditedBelow d e p) (hp : p < d.size)
    (htree : d.tree p = .node kind children) (hrow : e.row p = done) :
    e.tree p = .node kind (done.map Prod.snd) := by
  have hkind : d.kind p = kind := by rw [← kind_tree, htree]; rfl
  rw [tree_eq hedit.wellFormed, hedit.kind_self hp, hkind, ← map_snd_row, hrow]

/-- The children of a node, by the tree that stands there. -/
theorem map_snd_row_of_tree {kind : NodeKind} {children : List Tree} (hd : d.WellFormed)
    (htree : d.tree p = .node kind children) : (d.row p).map Prod.snd = children := by
  rw [map_snd_row, ← children_tree hd, htree]
  rfl

theorem eq_node_of_element? {t : Tree} {el : Element} (h : t.kind.element? = some el) :
    ∃ children, t = .node (.element el) children := by
  obtain ⟨kind, children⟩ := t
  cases kind with
  | element e =>
    obtain rfl : e = el := Option.some.inj h
    exact ⟨children, rfl⟩
  | _ => exact absurd h (by simp [Tree.kind, NodeKind.element?])

/-- What comes to the place of an entry: as many entries `news` as are told, whose trees are those
of `r`. -/
def PlaceOutcome (r : Except RenderFault (List Tree)) (d : Document) (p : NodeId)
    (before behind : List (NodeId × Tree)) : Except RenderFault (Document × Nat) → Prop
  | .error fault => r = .error fault
  | .ok (e, left) => EditedBelow d e p ∧ ∃ news, left = news.length ∧
      e.row p = before ++ news ++ behind ∧ r = .ok (news.map Prod.snd)

theorem PlaceOutcome.of_edited {r : Except RenderFault (List Tree)} {f : Document}
    {before behind : List (NodeId × Tree)} {result : Except RenderFault (Document × Nat)}
    (hd : d.WellFormed) (hedit : EditedBelow d f p) (h : PlaceOutcome r f p before behind result) :
    PlaceOutcome r d p before behind result := by
  match result, h with
  | .error fault, hfault => exact hfault
  | .ok (e, left), ⟨hedit', hplaced⟩ => exact ⟨hedit.trans hedit' hd, hplaced⟩

/-- What comes to the place of an element and what its chain leaves make the outcome of a visit. -/
theorem PlaceOutcome.visitOutcome {before behind : List (NodeId × Tree)} {el : Element}
    {children left : List Tree} {stays : Bool} {result : Except RenderFault (Document × Nat)}
    (h : PlaceOutcome (Siblings.replaced l expand el children stays) d p before
      (rowAfter el behind) result)
    (hsettle : Siblings.settle el (behind.map Prod.snd) = .ok (stays, left)) :
    VisitOutcome l expand d p before (.node (.element el) children) behind result := by
  have htrees := map_snd_rowAfter hsettle
  match result, h with
  | .error fault, hfault =>
    rw [PlaceOutcome] at hfault
    rw [VisitOutcome, Siblings.render_of_settle hsettle, hfault]
  | .ok (e, count), ⟨hedit, news, hcount, hrow, hplaced⟩ =>
    refine ⟨hedit, news, rowAfter el behind, hcount, hrow, ?_, ?_, ?_⟩
    · have hle := Siblings.length_of_settle hsettle
      rwa [← htrees, List.length_map, List.length_map] at hle
    · rw [htrees]
      exact Siblings.sizeAll_of_settle hsettle
    · rw [Siblings.render_of_settle hsettle, hplaced, htrees]

section Place

variable {before behind : List (NodeId × Tree)} {c : NodeId} {el : Element} {children : List Tree}

/-- To the place of a usage comes the body of its component. -/
theorem usage_outcome {bodies : Bodies} (hbodies : Answers bodies expand) (component : Component)
    (hd : d.WellFormed) (hrow : d.row p = before ++ (c, .node (.element el) children) :: behind) :
    PlaceOutcome (expand el children component) d p before behind
      ((bodies d c component).map (d.replace c)) := by
  have hanswer := hbodies component hd (tree_of_row hrow)
  rw [← hanswer]
  cases bodies d c component with
  | error fault => rfl
  | ok fragment =>
    obtain ⟨e, news, heq, hedit, hrow', htrees⟩ := row_replace hd hrow fragment
    refine (congrArg (fun r => PlaceOutcome _ d p before behind (.ok r)) heq).mpr ?_
    exact ⟨hedit, news, rfl, hrow', by rw [htrees]; rfl⟩

/-- To the place of an element that is kept comes the element with its children rendered. -/
theorem kept_outcome {bound : Nat}
    {visit : Document → NodeId → Except RenderFault (Document × Nat)}
    (hvisit : Walks l expand bound visit) (hd : d.WellFormed)
    (hrow : d.row p = before ++ (c, .node (.element el) children) :: behind)
    (hbound : Tree.sizeAll children ≤ bound) :
    PlaceOutcome
      ((Siblings.render l expand children).map fun inside => [.node (.element el) inside])
      d p before behind
      ((visitChildren visit c (d.children c).length d 0).map (·, 1)) := by
  have hchildren := map_snd_row_of_tree hd (tree_of_row hrow)
  have hwalk := visitChildren_walks_row (p := c) hvisit hd (by rw [hchildren]; exact hbound)
  have hmem := mem_children_of_row hrow
  match visitChildren visit c (d.children c).length d 0, hwalk with
  | .error fault, hfault =>
    rw [WalkOutcome, hchildren] at hfault
    rw [hfault]
    rfl
  | .ok e, ⟨hedit, done, hdone, hrender⟩ =>
    rw [hchildren] at hrender
    have htree := tree_of_row_eq hedit (hd.lt_size_of_mem_children hmem) (tree_of_row hrow) hdone
    refine ⟨hedit.up hd hmem, [(c, e.tree c)], rfl, ?_, ?_⟩
    · rw [hedit.row_up hd hrow]
      simp
    · rw [hrender, htree]
      rfl

/-- An element that continues a chain that nothing opened is at fault. -/
theorem settled_of_row_error (hd : d.WellFormed)
    (hrow : d.row p = before ++ (c, .node (.element el) children) :: behind) {fault : RenderFault}
    (hsettle : Siblings.settle el (behind.map Prod.snd) = .error fault) :
    (d.clearDeclaration c).settleChain c = .error fault :=
  settleChain_error (row_modifyElement hd hrow Element.withoutDeclaration) rfl hsettle

/-- An element is settled with its chain: it loses its directives and stays or goes, and behind it
stands what the chain leaves of the row. -/
theorem settled_of_row (hd : d.WellFormed)
    (hrow : d.row p = before ++ (c, .node (.element el) children) :: behind) {stays : Bool}
    {left : List Tree} (hsettle : Siblings.settle el (behind.map Prod.snd) = .ok (stays, left)) :
    ∃ f, (d.clearDeclaration c).settleChain c = .ok f ∧ EditedBelow d f p ∧
      f.row p = before ++ (if stays then [(c, .node (.element el.plain) children)] else []) ++
        rowAfter el behind ∧
      (f.parent? c).isNone = !stays := by
  have hclear := editedBelow_modifyElement hd hrow Element.withoutDeclaration
  have hcleared := row_modifyElement hd hrow Element.withoutDeclaration
  obtain ⟨f, hsettled, hedit, hrow', hparent⟩ :=
    settleChain_ok hclear.wellFormed hcleared rfl hsettle
  exact ⟨f, hsettled, hclear.trans hedit hd, hrow', hparent⟩

/-- To the place of an element that its chain lets stay comes what should, and behind it stands what
the chain leaves of the row. -/
theorem visitNode_of_settle {bodies : Bodies} (hbodies : Answers bodies expand) {nesting : Nat}
    (hvisit : Walks l expand nesting (visitNode l bodies nesting)) (hd : d.WellFormed)
    (hrow : d.row p = before ++ (c, .node (.element el) children) :: behind)
    (hbound : Tree.sizeAll children ≤ nesting) {stays : Bool} {left : List Tree}
    (hsettle : Siblings.settle el (behind.map Prod.snd) = .ok (stays, left)) :
    PlaceOutcome (Siblings.replaced l expand el children stays) d p before (rowAfter el behind)
      (visitNode l bodies (nesting + 1) d c) := by
  obtain ⟨f, hsettled, hedit, hrow', hparent⟩ := settled_of_row hd hrow hsettle
  rw [visitNode, element?_of_row hrow]
  dsimp only [Tree.kind, NodeKind.element?]
  rw [hsettled]
  dsimp only
  rw [hparent]
  cases stays with
  | false => exact ⟨hedit, [], rfl, by simpa using hrow', rfl⟩
  | true =>
    rw [if_pos rfl, List.append_assoc, List.singleton_append] at hrow'
    refine PlaceOutcome.of_edited hd hedit ?_
    simp only [Bool.not_true, Bool.false_eq_true, if_false, Siblings.replaced, Siblings.placed]
    cases l.lookup el.name with
    | some component => exact usage_outcome hbodies component hedit.wellFormed hrow'
    | none => exact kept_outcome hvisit hedit.wellFormed hrow' hbound

end Place

/-- **A visit comes to what it should**, whatever stands at the node. -/
theorem visitNode_walks {bodies : Bodies} (hbodies : Answers bodies expand) (nesting : Nat) :
    Walks l expand nesting (visitNode l bodies nesting) := by
  induction nesting with
  | zero =>
    intro d p before behind c t hd hrow hbound
    have hpos := t.size_pos
    rw [Tree.sizeAll_cons] at hbound
    omega
  | succ nesting ih =>
    intro d p before behind c t hd hrow hbound
    cases hel : t.kind.element? with
    | none =>
      rw [visitNode, element?_of_row hrow, hel]
      exact ⟨.refl hd p, [(c, t)], behind, rfl, by simp [hrow], Nat.le_refl _, Nat.le_refl _,
        Siblings.render_of_none hel⟩
    | some el =>
      obtain ⟨children, rfl⟩ := eq_node_of_element? hel
      cases hsettle : Siblings.settle el (behind.map Prod.snd) with
      | error fault =>
        rw [visitNode, element?_of_row hrow, hel]
        dsimp only
        rw [settled_of_row_error hd hrow hsettle, VisitOutcome, Siblings.render_element, hsettle]
      | ok result =>
        obtain ⟨stays, left⟩ := result
        rw [Tree.sizeAll_cons, Tree.size_node] at hbound
        exact (visitNode_of_settle hbodies ih hd hrow (by omega) hsettle).visitOutcome hsettle

/-! ## 4. Sources -/

/-- What rendering a source comes to: a well-formed document with the trees of `r` at its top. -/
def SourceOutcome (r : Except RenderFault (List Tree)) : Except RenderFault Document → Prop
  | .error fault => r = .error fault
  | .ok d => d.WellFormed ∧ d.kind root = .fragment ∧ r = .ok d.trees

theorem SourceOutcome.map_trees {r : Except RenderFault (List Tree)}
    {result : Except RenderFault Document} (h : SourceOutcome r result) :
    result.map Document.trees = r := by
  match result, h with
  | .error fault, hfault => exact hfault.symm
  | .ok d, ⟨_, _, htrees⟩ => exact htrees.symm

/-- The visits to the top of a new document. -/
theorem visitDocument_outcome {bodies : Bodies} (hbodies : Answers bodies expand)
    (ts : List Tree) :
    SourceOutcome (Siblings.render l expand ts) (visitDocument l bodies (ofTrees ts)) := by
  have hd := wellFormed_ofTrees ts
  have htrees : ((ofTrees ts).row root).map Prod.snd = ts := by
    rw [← trees_eq_map_row, trees_ofTrees]
  have hbound : Tree.sizeAll (((ofTrees ts).row root).map Prod.snd) ≤ (ofTrees ts).size := by
    rw [htrees, size_ofTrees]
    exact Nat.le_add_left _ _
  have hwalk := visitChildren_walks_row (visitNode_walks (l := l) hbodies _) hd hbound
  rw [visitDocument]
  match visitChildren (visitNode l bodies (ofTrees ts).size) root
    ((ofTrees ts).children root).length (ofTrees ts) 0, hwalk with
  | .error fault, hfault =>
    rw [WalkOutcome, htrees] at hfault
    exact hfault
  | .ok e, ⟨hedit, done, hdone, hrender⟩ =>
    rw [htrees] at hrender
    have hkind := hedit.kind_self hd.size_pos
    refine ⟨hedit.wellFormed, hkind.trans (kind_root_ofTrees ts), ?_⟩
    rw [hrender, trees_eq_map_row, hdone]
    rfl

theorem renderWith_outcome {bodies : Bodies} (hbodies : Answers bodies expand) (source : Text) :
    SourceOutcome (Siblings.renderWith l expand source) (renderWith l bodies source) := by
  rw [renderWith, Siblings.renderWith, Document.parse]
  cases Tree.parse source with
  | error fault => rfl
  | ok ts => exact visitDocument_outcome hbodies ts

/-- The body of a component is filled from the tree of its usage. -/
theorem filledBody_eq (hd : d.WellFormed) {id : NodeId} {e : Element} {children : List Tree}
    (htree : d.tree id = .node (.element e) children) (c : Component) :
    d.filledBody id c = Siblings.filledBody e children c := by
  have hkind : d.kind id = .element e := by rw [← kind_tree, htree]; rfl
  have hslot : d.slotText id = Siblings.slotText e children := by
    funext slot
    cases slot with
    | children =>
      rw [slotText, Document.inner, ← children_tree hd, htree]
      rfl
    | value name raw =>
      rw [slotText, element?, hkind]
      rfl
  rw [filledBody, Siblings.filledBody, hslot]

/-- The bodies that usages are answered with where components may nest so many levels deep. -/
def bodiesAt (l : Library) (limit : UInt64) : (levels : Nat) → Bodies
  | 0 => fun _ _ c => .error (.tooDeep c.key limit)
  | levels + 1 => fun d usage c => renderSource l limit levels (d.filledBody usage c)

theorem renderSource_eq (l : Library) (limit : UInt64) (levels : Nat) :
    renderSource l limit levels = renderWith l (bodiesAt l limit levels) := by
  cases levels <;> rfl

/-- **The bodies are what usages should be answered with**, however deep components may nest. -/
theorem answers_bodiesAt (l : Library) (limit : UInt64) (levels : Nat) :
    Answers (bodiesAt l limit levels) (Siblings.expansionAt l limit levels) := by
  induction levels with
  | zero => exact fun _ _ _ => rfl
  | succ levels ih =>
    intro d id e children c hd htree
    dsimp only [bodiesAt, Siblings.expansionAt]
    rw [filledBody_eq hd htree, renderSource_eq, Siblings.renderSource_eq]
    exact (renderWith_outcome ih _).map_trees

/-- **Rendering a source comes to what it should**, however deep components may nest. -/
theorem renderSource_outcome (l : Library) (limit : UInt64) (levels : Nat) (source : Text) :
    SourceOutcome (Siblings.renderSource l limit levels source)
      (renderSource l limit levels source) := by
  rw [Siblings.renderSource_eq, renderSource_eq]
  exact renderWith_outcome (answers_bodiesAt l limit levels) source

/-- **Rendering in place is the recursion on siblings**: for every source, library and depth both
give the same tree, or both the same fault. -/
theorem renderSource_tree (l : Library) (limit : UInt64) (levels : Nat) (source : Text) :
    (renderSource l limit levels source).map (fun d => d.tree root) =
      (Siblings.renderSource l limit levels source).map (Tree.node .fragment) := by
  match renderSource l limit levels source, renderSource_outcome l limit levels source with
  | .error fault, hfault =>
    rw [SourceOutcome] at hfault
    rw [hfault]
    rfl
  | .ok d, ⟨hd, hkind, htrees⟩ =>
    rw [htrees, Except.map, Except.map, tree_root hd, hkind]

end Stencil.Render

namespace Stencil.Engine

/-- **What an engine renders a template to**: the markup of the trees that the recursion on siblings
comes to. -/
theorem render_eq (e : Engine) (template : Text) :
    e.render template =
      (Siblings.renderSource e.library e.settings.maxDepth e.settings.maxDepth.toNat template).map
        (Tree.printAll e.settings.layout) := by
  rw [render, rendered]
  match Render.renderSource e.library e.settings.maxDepth e.settings.maxDepth.toNat template,
    Render.renderSource_outcome e.library e.settings.maxDepth e.settings.maxDepth.toNat
      template with
  | .error fault, hfault =>
    rw [Render.SourceOutcome] at hfault
    rw [hfault]
    rfl
  | .ok d, ⟨hd, hkind, htrees⟩ =>
    rw [htrees, Except.map, Except.map, Document.print, Document.tree_root hd, hkind, Tree.print]

end Stencil.Engine
