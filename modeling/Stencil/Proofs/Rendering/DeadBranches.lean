/-
# Branches that are not selected

An element that its chain takes out of the document is not looked at: whatever its name, its
attributes, the name it declares and all that is below it, the template renders to the same markup
or fails with the same fault.  Usages that would never end, chains that nothing opened and anything
else in such an element do not show.

The walk that renders the top of a document comes through a number of states (`Comes`); they are
states of the walk indeed, which goes on from each of them to the same end
(`Comes.visitChildren_eq`).  In one of them a chain takes the element out (`Engine.TakesOut`).  Up
to there the walk is followed on two rows that differ in the tree of one entry (`Differs`).  As both
trees carry the same directive, a chain treats them alike: either both are left, or both are gone
and the rows have become the same.  A visit in front of the entry puts the same trees in its place
on both rows, since what comes there depends on nothing behind it.
-/
import Stencil.Proofs.Markup.Tokens
import Stencil.Proofs.Rendering.Refinement

namespace Stencil

open Document

/-- Both trees are elements, and they carry the same directive of a chain or none. -/
def Tree.SameBranch (t t' : Tree) : Prop :=
  ∃ el el', t.kind.element? = some el ∧ t'.kind.element? = some el' ∧ el.branch = el'.branch

namespace Siblings

/-- What an element's chain does with it depends on its directive only. -/
theorem settle_of_branch_eq {el el' : Element} (hbranch : el.branch = el'.branch)
    {behind : List Tree} {result : Bool × List Tree} (h : settle el behind = .ok result) :
    settle el' behind = .ok result := by
  rw [settle_eq_ok] at h ⊢
  rwa [← hbranch]

end Siblings

namespace Document

/-! ## 1. Rows that differ in one tree -/

/-- Two rows are the same but for the trees at `id`, which carry the same directive. -/
inductive Differs (id : NodeId) : List (NodeId × Tree) → List (NodeId × Tree) → Prop
  /-- The entry comes first. -/
  | here {t t' : Tree} {row : List (NodeId × Tree)} (h : t.SameBranch t') :
      Differs id ((id, t) :: row) ((id, t') :: row)
  /-- The entry comes later. -/
  | later (x : NodeId × Tree) {row row' : List (NodeId × Tree)} (h : Differs id row row') :
      Differs id (x :: row) (x :: row')

section Differs

variable {id : NodeId} {row row' : List (NodeId × Tree)}

theorem Differs.mem (h : Differs id row row') : id ∈ row.map Prod.fst := by
  induction h with
  | here _ => simp
  | later x _ ih => simp only [List.map_cons, List.mem_cons, ih, or_true]

theorem Differs.of_sameBranch {t t' : Tree} (h : t.SameBranch t')
    (before behind : List (NodeId × Tree)) :
    Differs id (before ++ (id, t) :: behind) (before ++ (id, t') :: behind) := by
  induction before with
  | nil => exact .here h
  | cons x before ih => exact .later x ih

/-- An entry more in front of both rows. -/
theorem differs_or_eq_cons (x : NodeId × Tree) (h : Differs id row row' ∨ row = row') :
    Differs id (x :: row) (x :: row') ∨ x :: row = x :: row' :=
  h.imp (.later x) (congrArg (x :: ·))

theorem differs_rowAfterChosen (h : Differs id row row') :
    Differs id (rowAfterChosen row) (rowAfterChosen row') ∨
      rowAfterChosen row = rowAfterChosen row' := by
  induction h with
  | @here t t' row hbranch =>
    obtain ⟨el, el', hel, hel', heq⟩ := hbranch
    have hcontinues : el'.continuesChain = el.continuesChain := by
      rw [Element.continuesChain, Element.continuesChain, heq]
    simp only [rowAfterChosen, hel, hel', hcontinues]
    split
    · exact Or.inr rfl
    · exact Or.inl (.here ⟨el, el', hel, hel', heq⟩)
  | later x h ih =>
    simp only [rowAfterChosen]
    split
    · exact differs_or_eq_cons x ih
    · split
      · exact ih
      · exact Or.inl (.later x h)

theorem differs_rowAfterRejected (h : Differs id row row') :
    Differs id (rowAfterRejected row) (rowAfterRejected row') ∨
      rowAfterRejected row = rowAfterRejected row' := by
  induction h with
  | @here t t' row hbranch =>
    obtain ⟨el, el', hel, hel', heq⟩ := hbranch
    have hchosen : (t.mapElement Element.withoutBranch).SameBranch
        (t'.mapElement Element.withoutBranch) := by
      obtain ⟨children, rfl⟩ := Render.eq_node_of_element? hel
      obtain ⟨children', rfl⟩ := Render.eq_node_of_element? hel'
      exact ⟨el.withoutBranch, el'.withoutBranch, rfl, rfl, rfl⟩
    simp only [rowAfterRejected, hel, hel', ← heq]
    split
    · exact Or.inl (.here hchosen)
    · split
      · exact Or.inl (.here hchosen)
      · exact Or.inr rfl
    · exact Or.inl (.here ⟨el, el', hel, hel', heq⟩)
  | later x h ih =>
    simp only [rowAfterRejected]
    split
    · exact differs_or_eq_cons x ih
    · split
      · exact Or.inl (.later _ h)
      · split
        · exact differs_or_eq_cons _ (differs_rowAfterChosen h)
        · exact ih
      · exact Or.inl (.later x h)

/-- **A chain treats both trees alike**: it leaves both, or both are gone. -/
theorem differs_rowAfter (el : Element) (h : Differs id row row') :
    Differs id (rowAfter el row) (rowAfter el row') ∨ rowAfter el row = rowAfter el row' := by
  unfold rowAfter
  split
  · split
    · exact differs_rowAfterChosen h
    · exact differs_rowAfterRejected h
  · exact Or.inl h

end Differs

/-- What is left of a row behind an entry with this tree. -/
def rowBehind (t : Tree) (row : List (NodeId × Tree)) : List (NodeId × Tree) :=
  match t.kind.element? with
  | none => row
  | some el => rowAfter el row

theorem mem_of_mem_rowBehind {t : Tree} {id : NodeId} {row : List (NodeId × Tree)}
    (h : id ∈ (rowBehind t row).map Prod.fst) : id ∈ row.map Prod.fst := by
  unfold rowBehind at h
  split at h
  · exact h
  · exact mem_of_mem_rowAfter h

theorem differs_rowBehind (t : Tree) {id : NodeId} {row row' : List (NodeId × Tree)}
    (h : Differs id row row') :
    Differs id (rowBehind t row) (rowBehind t row') ∨ rowBehind t row = rowBehind t row' := by
  unfold rowBehind
  split
  · exact Or.inl h
  · exact differs_rowAfter _ h

end Document

namespace Render

/-! ## 2. The states of a walk -/

/-- A walk along the children of `p` that stands before the child at the index `i` of `d` comes to
stand before the child at the index `j` of `e`. -/
inductive Comes (visit : Document → NodeId → Except RenderFault (Document × Nat)) (p : NodeId)
    (d : Document) (i : Nat) : Document → Nat → Prop
  /-- Here it stands. -/
  | refl : Comes visit p d i d i
  /-- One visit more. -/
  | visit {e f : Document} {j left : Nat} {c : NodeId} (h : Comes visit p d i e j)
      (hchild : (e.children p)[j]? = some c) (hvisit : visit e c = .ok (f, left)) :
      Comes visit p d i f (j + left)

/-- **A walk goes on as from any state that it comes to**, after some number of visits.  The proofs
below follow `Comes` step by step and do without this; it is what shows that `Comes` speaks of the
walk which renders, so that what `Engine.TakesOut` asks for does come about in it. -/
theorem Comes.visitChildren_eq {visit : Document → NodeId → Except RenderFault (Document × Nat)}
    {p : NodeId} {d e : Document} {i j : Nat} (h : Comes visit p d i e j) :
    ∃ visits, ∀ more, visitChildren visit p (visits + more) d i =
      visitChildren visit p more e j := by
  induction h with
  | refl =>
    refine ⟨0, fun more => ?_⟩
    rw [Nat.zero_add]
  | visit _ hchild hvisit ih =>
    obtain ⟨visits, heq⟩ := ih
    refine ⟨visits + 1, fun more => ?_⟩
    have hone : visits + 1 + more = visits + (more + 1) := by omega
    rw [hone, heq, visitChildren, hchild]
    dsimp only
    rw [hvisit]

section Visit

variable {l : Library} {expand : Siblings.Expansion} {bodies : Bodies} {d : Document} {p : NodeId}
  {before behind : List (NodeId × Tree)} {c : NodeId} {t : Tree}

/-- **A visit puts trees in the place of an entry that do not depend on what is behind it**, and
behind it is left what the chain leaves. -/
theorem visitNode_row (hbodies : Answers bodies expand) {nesting : Nat} (hd : d.WellFormed)
    (hrow : d.row p = before ++ (c, t) :: behind)
    (hbound : Tree.sizeAll (t :: behind.map Prod.snd) ≤ nesting) {e : Document} {left : Nat}
    (hvisit : visitNode l bodies nesting d c = .ok (e, left)) :
    e.WellFormed ∧ ∃ news, left = news.length ∧
      e.row p = before ++ news ++ rowBehind t behind ∧
      Tree.sizeAll ((rowBehind t behind).map Prod.snd) ≤ Tree.sizeAll (behind.map Prod.snd) ∧
      ∀ row : List (NodeId × Tree), Siblings.render l expand (t :: row.map Prod.snd) =
        (Siblings.render l expand ((rowBehind t row).map Prod.snd)).map
          (news.map Prod.snd ++ ·) := by
  have hpos := t.size_pos
  rw [Tree.sizeAll_cons] at hbound
  obtain ⟨nesting, rfl⟩ : ∃ n, nesting = n + 1 := ⟨nesting - 1, by omega⟩
  cases hel : t.kind.element? with
  | none =>
    rw [visitNode, element?_of_row hrow, hel] at hvisit
    obtain ⟨rfl, rfl⟩ := Prod.mk.inj (Except.ok.inj hvisit)
    simp only [rowBehind, hel]
    refine ⟨hd, [(c, t)], rfl, by simp [hrow], Nat.le_refl _, fun row => ?_⟩
    exact Siblings.render_of_none hel
  | some el =>
    obtain ⟨children, rfl⟩ := eq_node_of_element? hel
    cases hsettle : Siblings.settle el (behind.map Prod.snd) with
    | error fault =>
      have hcleared := row_modifyElement hd hrow Element.withoutDeclaration
      rw [visitNode, element?_of_row hrow, hel] at hvisit
      dsimp only at hvisit
      rw [clearDeclaration, settleChain_error hcleared rfl hsettle] at hvisit
      cases hvisit
    | ok result =>
      obtain ⟨stays, after⟩ := result
      rw [Tree.size_node] at hbound
      have houtcome : PlaceOutcome (Siblings.replaced l expand el children stays) d p before
          (rowAfter el behind) (visitNode l bodies (nesting + 1) d c) :=
        visitNode_of_settle hbodies (visitNode_walks hbodies nesting) hd hrow (by omega) hsettle
      rw [hvisit] at houtcome
      obtain ⟨hedit, news, hleft, hrow', hplaced⟩ := houtcome
      have hsize := Siblings.sizeAll_of_settle hsettle
      rw [← map_snd_rowAfter hsettle] at hsize
      refine ⟨hedit.wellFormed, news, hleft, hrow', hsize, fun row => ?_⟩
      rw [Siblings.render_of_settle (settle_row hsettle row), hplaced]
      rfl

/-! ## 3. The walk on two rows -/

/-- What is known where a walk stands that has `ts` to render, or `ts'` if the tree at `id` is the
other one: both come to the same, or the entry at `id` was passed, or it is still ahead and nothing
that was rendered so far depends on it. -/
def Ahead (l : Library) (expand : Siblings.Expansion) (id : NodeId) (ts ts' : List Tree)
    (before behind : List (NodeId × Tree)) : Prop :=
  Siblings.render l expand ts = Siblings.render l expand ts' ∨ id ∉ behind.map Prod.fst ∨
    ∃ behind', Differs id behind behind' ∧
      Siblings.render l expand ts =
        (Siblings.render l expand (behind.map Prod.snd)).map (before.map Prod.snd ++ ·) ∧
      Siblings.render l expand ts' =
        (Siblings.render l expand (behind'.map Prod.snd)).map (before.map Prod.snd ++ ·)

variable {id : NodeId} {ts ts' : List Tree}

theorem map_map_append (r : Except RenderFault (List Tree)) (xs ys : List Tree) :
    (r.map (ys ++ ·)).map (xs ++ ·) = r.map (xs ++ ys ++ ·) := by
  cases r with
  | error fault => rfl
  | ok zs => exact congrArg Except.ok (List.append_assoc xs ys zs).symm

/-- **A visit keeps what is known.** -/
theorem Ahead.visit (hd : d.WellFormed) (hrow : d.row p = before ++ (c, t) :: behind)
    {news : List (NodeId × Tree)}
    (hrender : ∀ row : List (NodeId × Tree), Siblings.render l expand (t :: row.map Prod.snd) =
      (Siblings.render l expand ((rowBehind t row).map Prod.snd)).map (news.map Prod.snd ++ ·))
    (h : Ahead l expand id ts ts' before ((c, t) :: behind)) :
    Ahead l expand id ts ts' (before ++ news) (rowBehind t behind) := by
  rcases h with hsame | hpassed | ⟨_, hdiffers, hleft, hright⟩
  · exact Or.inl hsame
  · refine Or.inr (Or.inl fun hmem => hpassed ?_)
    exact List.mem_cons_of_mem _ (mem_of_mem_rowBehind hmem)
  · cases hdiffers with
    | here _ =>
      -- the visit is to the entry itself, whose number stands nowhere else
      refine Or.inr (Or.inl fun hmem => ?_)
      obtain ⟨x, hx, hid⟩ := List.mem_map.mp (mem_of_mem_rowBehind hmem)
      exact ne_of_mem_row hd hrow (Or.inr hx) hid
    | later _ hdiffers =>
      rw [List.map_cons, hrender, map_map_append, ← List.map_append] at hleft hright
      rcases differs_rowBehind t hdiffers with hdiffers | heq
      · exact Or.inr (Or.inr ⟨_, hdiffers, hleft, hright⟩)
      · exact Or.inl (by rw [hleft, hright, heq])

/-- At first nothing is rendered. -/
theorem Ahead.start {t' : Tree} {behind : List Tree} {before : List Tree}
    (hsnd : (d.row p).map Prod.snd = before ++ t :: behind) (hbranch : t.SameBranch t')
    (hid : (d.children p)[before.length]? = some id) :
    Ahead l expand id (before ++ t :: behind) (before ++ t' :: behind) [] (d.row p) := by
  obtain ⟨row, _, hrow, rfl, hrest⟩ := List.map_eq_append_iff.mp hsnd
  obtain ⟨⟨c, _⟩, row', rfl, rfl, rfl⟩ := List.map_eq_cons_iff.mp hrest
  rw [List.length_map, getElem?_children_of_row hrow] at hid
  obtain rfl := Option.some.inj hid
  have hnone : ∀ r : Except RenderFault (List Tree),
      r.map (([] : List (NodeId × Tree)).map Prod.snd ++ ·) = r := by
    intro r
    cases r <;> rfl
  refine Or.inr (Or.inr ⟨row ++ (c, t') :: row', hrow ▸ .of_sameBranch hbranch row row', ?_, ?_⟩)
  · rw [hnone, hsnd]
  · rw [hnone, List.map_append, List.map_cons]

/-- What is known in every state that a walk comes to. -/
theorem ahead_of_comes (hbodies : Answers bodies expand) {nesting : Nat} {e : Document} {j : Nat}
    (h : Comes (visitNode l bodies nesting) p d 0 e j) (hd : d.WellFormed)
    (hbound : Tree.sizeAll ((d.row p).map Prod.snd) ≤ nesting)
    (hahead : Ahead l expand id ts ts' [] (d.row p)) :
    e.WellFormed ∧ ∃ before behind, e.row p = before ++ behind ∧ j = before.length ∧
      Tree.sizeAll (behind.map Prod.snd) ≤ nesting ∧ Ahead l expand id ts ts' before behind := by
  induction h with
  | refl => exact ⟨hd, [], d.row p, rfl, rfl, hbound, hahead⟩
  | visit _ hchild hvisit ih =>
    obtain ⟨he, before, behind, hrow, rfl, hsize, hahead⟩ := ih
    cases behind with
    | nil =>
      rw [← map_fst_row, hrow] at hchild
      simp at hchild
    | cons x behind =>
      obtain ⟨c, t⟩ := x
      obtain rfl := Option.some.inj ((getElem?_children_of_row hrow).symm.trans hchild)
      obtain ⟨hf, news, rfl, hrow', hless, hrender⟩ := visitNode_row hbodies he hrow hsize hvisit
      rw [List.map_cons, Tree.sizeAll_cons] at hsize
      refine ⟨hf, before ++ news, rowBehind t behind, hrow', ?_, by omega,
        hahead.visit he hrow hrender⟩
      rw [List.length_append]

/-- **Where a chain takes the entry out, both come to the same.** -/
theorem Ahead.render_eq (hd : d.WellFormed) (hrow : d.row p = before ++ (c, t) :: behind)
    (h : Ahead l expand id ts ts' before ((c, t) :: behind)) {e : Document}
    (hsettled : (d.clearDeclaration c).settleChain c = .ok e) (hmem : id ∈ d.children p)
    (hgone : id ∉ e.children p) :
    Siblings.render l expand ts = Siblings.render l expand ts' := by
  have hclear := editedBelow_modifyElement hd hrow Element.withoutDeclaration
  have hcleared := row_modifyElement hd hrow Element.withoutDeclaration
  cases hel : t.kind.element? with
  | none =>
    have hkeeps : (d.clearDeclaration c).settleChain c = .ok (d.clearDeclaration c) := by
      rw [settleChain, clearDeclaration, element?_of_row hcleared]
      cases t with
      | node kind children =>
        cases kind with
        | element el => cases hel
        | _ => rfl
    obtain rfl := Except.ok.inj (hkeeps.symm.trans hsettled)
    rw [clearDeclaration, children_modifyElement] at hgone
    exact absurd hmem hgone
  | some el =>
    obtain ⟨children, rfl⟩ := eq_node_of_element? hel
    cases hsettle : Siblings.settle el (behind.map Prod.snd) with
    | error fault =>
      rw [clearDeclaration, settleChain_error hcleared rfl hsettle] at hsettled
      cases hsettled
    | ok result =>
      obtain ⟨stays, after⟩ := result
      obtain ⟨f, hf, -, hrow', -⟩ := settleChain_ok hclear.wellFormed hcleared rfl hsettle
      obtain rfl := Except.ok.inj (hf.symm.trans hsettled)
      have hleft : rowAfter el.withoutDeclaration behind = rowAfter el behind := rfl
      rw [← map_fst_row, hrow', hleft] at hgone
      simp only [List.map_append, List.mem_append, not_or] at hgone
      obtain ⟨⟨hbefore, hplace⟩, hafter⟩ := hgone
      rcases h with hsame | hpassed | ⟨_, hdiffers, hleft, hright⟩
      · exact hsame
      · rw [← map_fst_row, hrow, List.map_append, List.mem_append] at hmem
        exact absurd hmem (not_or.mpr ⟨hbefore, hpassed⟩)
      · cases hdiffers with
        | @here _ t' _ hbranch =>
          -- the chain takes out the element that opens it
          cases stays with
          | true => exact absurd (by simp) hplace
          | false =>
            obtain ⟨el', el'', hel', hel'', heq⟩ := hbranch
            obtain rfl := Option.some.inj (hel.symm.trans hel')
            obtain ⟨children', rfl⟩ := eq_node_of_element? hel''
            rw [List.map_cons, Siblings.render_of_settle hsettle] at hleft
            rw [List.map_cons, Siblings.render_of_settle
              (Siblings.settle_of_branch_eq heq hsettle)] at hright
            rw [hleft, hright]
            rfl
        | later _ hdiffers =>
          rcases differs_rowAfter el hdiffers with hdiffers | heq
          · exact absurd hdiffers.mem hafter
          · rw [List.map_cons, Siblings.render_of_settle (settle_row hsettle _)] at hleft hright
            rw [hleft, hright, heq]

end Visit

end Render

/-! ## 4. Templates -/

namespace Engine

/-- While the top of the document is rendered, a chain takes the node out: the walk comes to a state
(`Render.Comes.visitChildren_eq`) in which the node is still at the top, and the chain of the
element that is next takes it out. -/
def TakesOut (e : Engine) (d : Document) (id : NodeId) : Prop :=
  let bodies := Render.bodiesAt e.library e.settings.maxDepth e.settings.maxDepth.toNat
  ∃ f j c g, Render.Comes (Render.visitNode e.library bodies d.size) root d 0 f j ∧
    (f.children root)[j]? = some c ∧ (f.clearDeclaration c).settleChain c = .ok g ∧
    id ∈ f.children root ∧ id ∉ g.children root

/-- **Branches that are not selected do not show.**  Take two templates whose trees are the same but
for one element at the top that carries the same directive in both.  If a chain takes it out while
the first is rendered, both render to the same markup or fail with the same fault. -/
theorem render_eq_of_takesOut {e : Engine} {source source' : Text} {d d' : Document}
    {before behind : List Tree} {t t' : Tree} {id : NodeId}
    (hparse : Document.parse source = .ok d) (hparse' : Document.parse source' = .ok d')
    (htrees : d.trees = before ++ t :: behind) (htrees' : d'.trees = before ++ t' :: behind)
    (hbranch : t.SameBranch t') (hid : (d.children root)[before.length]? = some id)
    (hout : e.TakesOut d id) : e.render source = e.render source' := by
  obtain ⟨ts, hts, rfl⟩ := exists_of_map_eq_ok hparse
  obtain ⟨ts', hts', rfl⟩ := exists_of_map_eq_ok hparse'
  rw [trees_ofTrees] at htrees htrees'
  obtain ⟨f, j, c, g, hcomes, hchild, hsettled, hmem, hgone⟩ := hout
  have hd := wellFormed_ofTrees ts
  have hsnd : ((ofTrees ts).row root).map Prod.snd = ts := by
    rw [← trees_eq_map_row, trees_ofTrees]
  have hbound : Tree.sizeAll (((ofTrees ts).row root).map Prod.snd) ≤ (ofTrees ts).size := by
    rw [hsnd, size_ofTrees]
    exact Nat.le_add_left _ _
  obtain ⟨hf, done, todo, hrow, rfl, -, hahead⟩ :=
    Render.ahead_of_comes (Render.answers_bodiesAt _ _ _) hcomes hd hbound
      (.start (hsnd.trans htrees) hbranch hid)
  rw [render_eq, render_eq, Siblings.renderSource_eq, Siblings.renderWith, Siblings.renderWith, hts,
    hts', htrees, htrees']
  cases todo with
  | nil =>
    rw [← map_fst_row, hrow] at hchild
    simp at hchild
  | cons x todo =>
    obtain ⟨c', t₀⟩ := x
    obtain rfl := Option.some.inj ((getElem?_children_of_row hrow).symm.trans hchild)
    exact congrArg (Except.map _) (hahead.render_eq hf hrow hsettled hmem hgone)

/-- A component that uses itself without end: `<l><L/></l>`. -/
def endlessSample : Engine :=
  ⟨⟨[(['L'], ⟨['L'], ['l'], .ofTrees [.node (.element { name := ['l'], declares := some ['l'] })
    [.leaf (.element { name := ['L'], selfClosing := true })]]⟩)]⟩, ⟨2, true⟩⟩

/-- `<p @if=1/>`, which is chosen. -/
def chosenSample : Tree :=
  .leaf (.element { name := ['p'], branch := some (.when ['1']), selfClosing := true })

/-- `<L @else/>`, behind which there is no end. -/
def endlessUsageSample : Tree :=
  .leaf (.element { name := ['L'], branch := some .otherwise, selfClosing := true })

/-- `<i @else>b</i>`. -/
def endingUsageSample : Tree :=
  .node (.element { name := ['i'], branch := some .otherwise }) [.leaf (.text ['b'])]

theorem render_endlessSample :
    Document.parse "<p @if=1/><L @else/>".toList =
      .ok (.ofTrees [chosenSample, endlessUsageSample]) ∧
    Document.parse "<p @if=1/><i @else>b</i>".toList =
      .ok (.ofTrees [chosenSample, endingUsageSample]) ∧
    endlessUsageSample.SameBranch endingUsageSample ∧
    endlessSample.TakesOut (.ofTrees [chosenSample, endlessUsageSample]) 2 ∧
    endlessSample.render "<p @if=1/><L @else/>".toList =
      endlessSample.render "<p @if=1/><i @else>b</i>".toList := by
  have hparse : Document.parse "<p @if=1/><L @else/>".toList =
      .ok (.ofTrees [chosenSample, endlessUsageSample]) := by decide +kernel
  have hparse' : Document.parse "<p @if=1/><i @else>b</i>".toList =
      .ok (.ofTrees [chosenSample, endingUsageSample]) := by decide +kernel
  have hbranch : endlessUsageSample.SameBranch endingUsageSample := ⟨_, _, rfl, rfl, rfl⟩
  have hout : endlessSample.TakesOut (.ofTrees [chosenSample, endlessUsageSample]) 2 := by
    -- the chain is the first that is looked at, so this is where the walk begins
    refine ⟨_, 0, 1, ⟨#[⟨.fragment, none, [1]⟩,
      ⟨.element { name := ['p'], selfClosing := true }, some 0, []⟩,
      ⟨.element { name := ['L'], branch := some .otherwise, selfClosing := true }, none, []⟩]⟩,
      .refl, rfl, ?_, ?_, ?_⟩
    all_goals decide +kernel
  have htrees : (ofTrees [chosenSample, endlessUsageSample]).trees =
      [chosenSample] ++ endlessUsageSample :: [] := trees_ofTrees _
  have htrees' : (ofTrees [chosenSample, endingUsageSample]).trees =
      [chosenSample] ++ endingUsageSample :: [] := trees_ofTrees _
  exact ⟨hparse, hparse', hbranch, hout,
    render_eq_of_takesOut hparse hparse' htrees htrees' hbranch rfl hout⟩

/-- If the usage is the branch that is chosen, it does show. -/
example : endlessSample.render "<p @if=0/><L @else/>".toList = .error (.tooDeep ['L'] 2) := by
  decide +kernel

end Engine

end Stencil
