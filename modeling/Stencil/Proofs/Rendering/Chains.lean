/-
# Chains in a document

Resolving a chain walks down the numbers of the elements behind its first and takes them out of the
table one by one.  This module shows that on the row of the parent this is what `Siblings.settle`
does to a list of trees.  `rowAfter` says which entries are left, so that it can be seen whose
numbers go, and its trees are those that `Siblings.settle` leaves (`map_snd_rowAfter`).

Both walks, `dropRun` and `choose`, are followed by an induction on the row behind the chain's
first element.  An entry that is no element is passed: it is not among the numbers that are walked
down, and it stays.  An entry that is an element is the next number, and it is taken out, changed or
left, and then the walk goes on or ends.
-/
import Stencil.Proofs.Rendering.Siblings
import Stencil.Render.Chain

namespace Stencil.Document

variable {d e : Document} {p : NodeId}

/-! ## 1. What a chain leaves of a row -/

/-- What is left of a row behind an entry that was chosen. -/
def rowAfterChosen : List (NodeId × Tree) → List (NodeId × Tree)
  | [] => []
  | x :: rest =>
    match x.2.kind.element? with
    | none => x :: rowAfterChosen rest
    | some e => if e.continuesChain then rowAfterChosen rest else x :: rest

/-- What is left of a row behind an entry that was not chosen. -/
def rowAfterRejected : List (NodeId × Tree) → List (NodeId × Tree)
  | [] => []
  | x :: rest =>
    match x.2.kind.element? with
    | none => x :: rowAfterRejected rest
    | some e =>
      match e.branch with
      | some .otherwise => (x.1, x.2.mapElement Element.withoutBranch) :: rest
      | some (.orWhen condition) =>
        if condition.holds then
          (x.1, x.2.mapElement Element.withoutBranch) :: rowAfterChosen rest
        else rowAfterRejected rest
      | _ => x :: rest

/-- What is left of a row behind an entry that is settled with its chain. -/
def rowAfter (e : Element) (row : List (NodeId × Tree)) : List (NodeId × Tree) :=
  match e.branch with
  | some (.when condition) => if condition.holds then rowAfterChosen row else rowAfterRejected row
  | _ => row

theorem map_snd_rowAfterChosen (row : List (NodeId × Tree)) :
    (rowAfterChosen row).map Prod.snd = Siblings.afterChosen (row.map Prod.snd) := by
  induction row with
  | nil => rfl
  | cons x row ih =>
    rw [rowAfterChosen, List.map_cons, Siblings.afterChosen]
    cases x.2.kind.element? with
    | none => rw [← ih, List.map_cons]
    | some e =>
      dsimp only
      split
      · exact ih
      · rfl

theorem map_snd_rowAfterRejected (row : List (NodeId × Tree)) :
    (rowAfterRejected row).map Prod.snd = Siblings.afterRejected (row.map Prod.snd) := by
  induction row with
  | nil => rfl
  | cons x row ih =>
    rw [rowAfterRejected, List.map_cons, Siblings.afterRejected, ← map_snd_rowAfterChosen]
    cases x.2.kind.element? with
    | none => rw [← ih, List.map_cons]
    | some e =>
      dsimp only
      cases e.branch with
      | none => rfl
      | some branch =>
        cases branch with
        | when condition => rfl
        | otherwise => rfl
        | orWhen condition =>
          dsimp only
          split
          · rfl
          · exact ih

/-- **The trees that are left of a row** are what is left of its trees.  Whether the element stays
does not depend on the row. -/
theorem settle_row {e : Element} {behind left : List Tree} {stays : Bool}
    (h : Siblings.settle e behind = .ok (stays, left)) (row : List (NodeId × Tree)) :
    Siblings.settle e (row.map Prod.snd) = .ok (stays, (rowAfter e row).map Prod.snd) := by
  rw [Siblings.settle_eq_ok] at h ⊢
  rcases h with ⟨hbranch, hstays, -⟩ | ⟨condition, hbranch, hstays, -⟩
  · exact Or.inl ⟨hbranch, hstays, by rw [rowAfter, hbranch]⟩
  · refine Or.inr ⟨condition, hbranch, hstays, ?_⟩
    rw [rowAfter, hbranch, ← map_snd_rowAfterChosen, ← map_snd_rowAfterRejected]
    exact apply_ite (List.map Prod.snd) (condition.holds = true) _ _

theorem map_snd_rowAfter {e : Element} {row : List (NodeId × Tree)} {stays : Bool}
    {left : List Tree} (h : Siblings.settle e (row.map Prod.snd) = .ok (stays, left)) :
    (rowAfter e row).map Prod.snd = left := by
  have hrow := settle_row h row
  rw [h] at hrow
  exact (Prod.mk.inj (Except.ok.inj hrow)).2.symm

section Entries

variable {id : NodeId} {row : List (NodeId × Tree)}

theorem mem_of_mem_rowAfterChosen (h : id ∈ (rowAfterChosen row).map Prod.fst) :
    id ∈ row.map Prod.fst := by
  induction row with
  | nil => exact h
  | cons x row ih =>
    rw [rowAfterChosen] at h
    rw [List.map_cons, List.mem_cons]
    cases hel : x.2.kind.element? with
    | none =>
      rw [hel, List.map_cons, List.mem_cons] at h
      exact h.imp_right ih
    | some e =>
      rw [hel] at h
      dsimp only at h
      split at h
      · exact Or.inr (ih h)
      · exact List.mem_cons.mp h

theorem mem_of_mem_rowAfterRejected (h : id ∈ (rowAfterRejected row).map Prod.fst) :
    id ∈ row.map Prod.fst := by
  induction row with
  | nil => exact h
  | cons x row ih =>
    rw [rowAfterRejected] at h
    rw [List.map_cons, List.mem_cons]
    cases hel : x.2.kind.element? with
    | none =>
      rw [hel, List.map_cons, List.mem_cons] at h
      exact h.imp_right ih
    | some e =>
      rw [hel] at h
      dsimp only at h
      split at h
      · exact List.mem_cons.mp h
      · split at h
        · exact (List.mem_cons.mp h).imp_right mem_of_mem_rowAfterChosen
        · exact Or.inr (ih h)
      · exact List.mem_cons.mp h

/-- A chain brings nothing into a row. -/
theorem mem_of_mem_rowAfter {e : Element} (h : id ∈ (rowAfter e row).map Prod.fst) :
    id ∈ row.map Prod.fst := by
  rw [rowAfter] at h
  split at h
  · split at h
    · exact mem_of_mem_rowAfterChosen h
    · exact mem_of_mem_rowAfterRejected h
  · exact h

end Entries

/-! ## 2. The walks -/

/-- An element outside any chain has no directive to lose. -/
theorem mapElement_withoutBranch {t : Tree} {el : Element} (hel : t.kind.element? = some el)
    (hbranch : el.branch = none) : t.mapElement Element.withoutBranch = t := by
  obtain ⟨kind, children⟩ := t
  cases kind with
  | element e' =>
    obtain rfl : e' = el := Option.some.inj hel
    obtain ⟨name, declares, branch, attributes, selfClosing⟩ := e'
    obtain rfl : branch = none := hbranch
    rfl
  | _ => rfl

/-- The numbers of the elements in a row. -/
def elementIds (row : List (NodeId × Tree)) : List NodeId :=
  (row.filter fun x => x.2.kind.element?.isSome).map Prod.fst

section ElementIds

variable {c : NodeId} {t : Tree}

theorem elementIds_cons_of_none (h : t.kind.element? = none) (row : List (NodeId × Tree)) :
    elementIds ((c, t) :: row) = elementIds row := by
  simp [elementIds, h]

theorem elementIds_cons_of_some {el : Element} (h : t.kind.element? = some el)
    (row : List (NodeId × Tree)) : elementIds ((c, t) :: row) = c :: elementIds row := by
  simp [elementIds, h]

end ElementIds

section Walks

variable {before behind : List (NodeId × Tree)} {c : NodeId} {t : Tree}

theorem branch?_of_row (hrow : d.row p = before ++ (c, t) :: behind) {el : Element}
    (hel : t.kind.element? = some el) : d.branch? c = el.branch := by
  rw [branch?, element?_of_row hrow, hel]
  rfl

theorem editedBelow_clearBranch (hd : d.WellFormed)
    (hrow : d.row p = before ++ (c, t) :: behind) : EditedBelow d (d.clearBranch c) p :=
  editedBelow_modifyElement hd hrow _

theorem row_clearBranch (hd : d.WellFormed) (hrow : d.row p = before ++ (c, t) :: behind) :
    (d.clearBranch c).row p = before ++ (c, t.mapElement Element.withoutBranch) :: behind :=
  row_modifyElement hd hrow _

/-- **Dropping the rest of a chain** leaves what is left behind an entry that was chosen. -/
theorem dropRun_row (hd : d.WellFormed) (hrow : d.row p = before ++ behind) :
    EditedBelow d (d.dropRun (elementIds behind)) p ∧
      (d.dropRun (elementIds behind)).row p = before ++ rowAfterChosen behind := by
  induction behind generalizing d before with
  | nil => exact ⟨.refl hd p, hrow⟩
  | cons x behind ih =>
    obtain ⟨c, t⟩ := x
    rw [rowAfterChosen]
    cases hel : t.kind.element? with
    | none =>
      rw [elementIds_cons_of_none hel]
      have hrow' : d.row p = (before ++ [(c, t)]) ++ behind := by simp [hrow]
      obtain ⟨hedit, hleft⟩ := ih hd hrow'
      exact ⟨hedit, by simpa using hleft⟩
    | some el =>
      have hany : el.branch.any Branch.continuesChain = el.continuesChain := rfl
      simp only [elementIds_cons_of_some hel, dropRun, branch?_of_row hrow hel, hany]
      by_cases hcontinues : el.continuesChain
      · have hedit := editedBelow_detach hd hrow
        obtain ⟨hedit', hleft⟩ := ih hedit.wellFormed (row_detach hd hrow)
        rw [if_pos hcontinues, if_pos hcontinues]
        exact ⟨hedit.trans hedit' hd, hleft⟩
      · rw [if_neg hcontinues, if_neg hcontinues]
        exact ⟨.refl hd p, hrow⟩

/-- An element that was chosen loses its directive, and the rest of its chain goes. -/
theorem dropRun_clearBranch_row (hd : d.WellFormed)
    (hrow : d.row p = before ++ (c, t) :: behind) :
    EditedBelow d ((d.clearBranch c).dropRun (elementIds behind)) p ∧
      ((d.clearBranch c).dropRun (elementIds behind)).row p =
        before ++ (c, t.mapElement Element.withoutBranch) :: rowAfterChosen behind := by
  have hclear := editedBelow_clearBranch hd hrow
  have hrow' : (d.clearBranch c).row p =
      (before ++ [(c, t.mapElement Element.withoutBranch)]) ++ behind := by
    simp [row_clearBranch hd hrow]
  obtain ⟨hedit, hleft⟩ := dropRun_row hclear.wellFormed hrow'
  exact ⟨hclear.trans hedit hd, by simpa using hleft⟩

/-- **Choosing an alternative** leaves what is left behind an entry that was not chosen. -/
theorem choose_row (hd : d.WellFormed) (hrow : d.row p = before ++ behind) :
    EditedBelow d (d.choose (elementIds behind)) p ∧
      (d.choose (elementIds behind)).row p = before ++ rowAfterRejected behind := by
  induction behind generalizing d before with
  | nil => exact ⟨.refl hd p, hrow⟩
  | cons x behind ih =>
    obtain ⟨c, t⟩ := x
    rw [rowAfterRejected]
    cases hel : t.kind.element? with
    | none =>
      rw [elementIds_cons_of_none hel]
      have hrow' : d.row p = (before ++ [(c, t)]) ++ behind := by simp [hrow]
      obtain ⟨hedit, hleft⟩ := ih hd hrow'
      exact ⟨hedit, by simpa using hleft⟩
    | some el =>
      simp only [elementIds_cons_of_some hel, choose, branch?_of_row hrow hel]
      match el.branch with
      | none => exact ⟨.refl hd p, hrow⟩
      | some (.when condition) => exact ⟨.refl hd p, hrow⟩
      | some .otherwise => exact ⟨editedBelow_clearBranch hd hrow, row_clearBranch hd hrow⟩
      | some (.orWhen condition) =>
        by_cases hholds : condition.holds
        · simp only [if_pos hholds]
          exact dropRun_clearBranch_row hd hrow
        · have hedit := editedBelow_detach hd hrow
          obtain ⟨hedit', hleft⟩ := ih hedit.wellFormed (row_detach hd hrow)
          simp only [if_neg hholds]
          exact ⟨hedit.trans hedit' hd, hleft⟩

theorem parent?_dropRun {x : NodeId} (ids : List NodeId) (hx : d.parent? x = none) :
    (d.dropRun ids).parent? x = none := by
  induction ids generalizing d with
  | nil => exact hx
  | cons c rest ih =>
    rw [dropRun]
    split
    · exact ih (by simp [parent?_detach, hx])
    · exact hx

/-- A node that was taken out stays out. -/
theorem parent?_choose {x : NodeId} (ids : List NodeId) (hx : d.parent? x = none) :
    (d.choose ids).parent? x = none := by
  induction ids generalizing d with
  | nil => exact hx
  | cons c rest ih =>
    rw [choose]
    split
    · exact (parent?_modifyElement d c x _).trans hx
    · split
      · exact parent?_dropRun rest ((parent?_modifyElement d c x _).trans hx)
      · exact ih (by simp [parent?_detach, hx])
    · exact hx

/-! ## 3. Chains -/

/-- A chain that nothing opened is a fault, the same in a row as on a list. -/
theorem settleChain_error (hrow : d.row p = before ++ (c, t) :: behind) {el : Element}
    (hel : t.kind.element? = some el) {fault : RenderFault}
    (h : Siblings.settle el (behind.map Prod.snd) = .error fault) :
    d.settleChain c = .error fault := by
  rw [settleChain, element?_of_row hrow, hel]
  obtain ⟨hbranch, rfl⟩ | ⟨condition, hbranch, rfl⟩ := Siblings.settle_eq_error.mp h
  · simp [hbranch]
  · simp [hbranch]

/-- **A chain leaves in a row what it leaves on a list.** -/
theorem settleChain_ok (hd : d.WellFormed) (hrow : d.row p = before ++ (c, t) :: behind)
    {el : Element} (hel : t.kind.element? = some el) {stays : Bool} {left : List Tree}
    (h : Siblings.settle el (behind.map Prod.snd) = .ok (stays, left)) :
    ∃ e, d.settleChain c = .ok e ∧ EditedBelow d e p ∧
      e.row p = before ++ (if stays then [(c, t.mapElement Element.withoutBranch)] else []) ++
        rowAfter el behind ∧
      (e.parent? c).isNone = !stays := by
  have hlater : d.laterElements c = elementIds behind := laterElements_of_row hd hrow
  rw [settleChain, element?_of_row hrow, hel, rowAfter]
  obtain ⟨hb, rfl, -⟩ | ⟨condition, hb, rfl, -⟩ := Siblings.settle_eq_ok.mp h
  · refine ⟨d, by simp [hb], .refl hd p, ?_, by simp [parent?_of_row hd hrow]⟩
    rw [hrow, mapElement_withoutBranch hel hb]
    simp [hb]
  · simp only [hb, hlater]
    cases condition.holds with
    | true =>
      obtain ⟨hedit, hleft⟩ := dropRun_clearBranch_row hd hrow
      exact ⟨_, rfl, hedit, by simpa using hleft,
        by simp [parent?_of_row hedit.wellFormed hleft]⟩
    | false =>
      have hclear := editedBelow_clearBranch hd hrow
      have hdetach := editedBelow_detach hclear.wellFormed (row_clearBranch hd hrow)
      obtain ⟨hedit, hleft⟩ :=
        choose_row hdetach.wellFormed (row_detach hclear.wellFormed (row_clearBranch hd hrow))
      refine ⟨_, rfl, (hclear.trans hdetach hd).trans hedit hd, by simpa using hleft, ?_⟩
      rw [parent?_choose _ (by simp [parent?_detach])]
      rfl

end Walks

end Stencil.Document
