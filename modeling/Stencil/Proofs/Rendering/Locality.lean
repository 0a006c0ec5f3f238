/-
# Rendering part by part

A template that is put together of two parts renders to the markup of the parts, if each of them
renders alone and the second one begins with markup.  The parts are read as they are alone
(`Tree.parse_append`), so the trees of the second stand behind those of the first.

What could join them is a chain of alternatives: one that the first part leaves open goes on with
the next element, and that may be the first of the second part.  But then this element carries a
directive that continues a chain, and as the second part renders alone, where nothing stands before
it, it carries none (`fresh_of_render`).  So chains end at the seam (`settle_append`), and
everything else that rendering does stays within one tree.
-/
import Stencil.Proofs.Markup.Locality
import Stencil.Proofs.Rendering.Refinement

namespace Stencil

namespace Siblings

/-! ## 1. Chains end at the seam -/

/-- The first element among the trees, if there is one, does not continue a chain. -/
def Fresh : List Tree → Prop
  | [] => True
  | t :: rest =>
    match t.kind.element? with
    | none => Fresh rest
    | some e => e.continuesChain = false

section Chains

variable {ts : List Tree} {t : Tree} {e : Element}

theorem fresh_cons_of_none (ht : t.kind.element? = none) : Fresh (t :: ts) ↔ Fresh ts := by
  rw [Fresh, ht]

theorem fresh_cons_of_some (ht : t.kind.element? = some e) :
    Fresh (t :: ts) ↔ e.continuesChain = false := by
  rw [Fresh, ht]

/-- Behind an element that was chosen, what begins no alternative stays. -/
theorem afterChosen_append (hts : Fresh ts) (ss : List Tree) :
    afterChosen (ss ++ ts) = afterChosen ss ++ ts := by
  induction ss with
  | nil =>
    rw [List.nil_append, afterChosen, List.nil_append]
    induction ts with
    | nil => rfl
    | cons t ts ih =>
      rw [afterChosen]
      cases ht : t.kind.element? with
      | none => rw [ih ((fresh_cons_of_none ht).mp hts)]
      | some e =>
        dsimp only
        rw [if_neg (by simp [(fresh_cons_of_some ht).mp hts])]
  | cons s ss ih =>
    rw [List.cons_append, afterChosen, afterChosen]
    cases s.kind.element? with
    | none => rw [ih, List.cons_append]
    | some e =>
      dsimp only
      split
      · exact ih
      · rfl

/-- Behind an element that was not chosen, what begins no alternative stays as well. -/
theorem afterRejected_append (hts : Fresh ts) (ss : List Tree) :
    afterRejected (ss ++ ts) = afterRejected ss ++ ts := by
  induction ss with
  | nil =>
    rw [List.nil_append, afterRejected, List.nil_append]
    induction ts with
    | nil => rfl
    | cons t ts ih =>
      cases ht : t.kind.element? with
      | none =>
        rw [afterRejected, ht]
        dsimp only
        rw [ih ((fresh_cons_of_none ht).mp hts)]
      | some e => exact afterRejected_of_stops ht ((fresh_cons_of_some ht).mp hts) ts
  | cons s ss ih =>
    rw [List.cons_append, afterRejected, afterRejected, afterChosen_append hts]
    cases s.kind.element? with
    | none => rw [ih, List.cons_append]
    | some e =>
      dsimp only
      split
      · rfl
      · split
        · rfl
        · exact ih
      · rfl

/-- **A chain ends at the seam.** -/
theorem settle_append (hts : Fresh ts) (e : Element) (behind : List Tree) :
    settle e (behind ++ ts) =
      (settle e behind).map fun (stays, left) => (stays, left ++ ts) := by
  unfold settle
  split
  · rfl
  · rfl
  · rfl
  · rw [afterChosen_append hts, afterRejected_append hts]
    split <;> rfl

end Chains

/-! ## 2. Lists of trees -/

variable {l : Library} {expand : Expansion}

/-- Trees that render alone begin with no alternative of a chain. -/
theorem fresh_of_render {ts out : List Tree} (h : render l expand ts = .ok out) : Fresh ts := by
  induction ts generalizing out with
  | nil => trivial
  | cons t ts ih =>
    cases ht : t.kind.element? with
    | none =>
      rw [render_of_none ht] at h
      obtain ⟨tail, htail, -⟩ := exists_of_map_eq_ok h
      exact (fresh_cons_of_none ht).mpr (ih htail)
    | some e =>
      obtain ⟨children, rfl⟩ := Render.eq_node_of_element? ht
      rw [fresh_cons_of_some ht, Element.continuesChain_eq_false]
      cases hsettle : settle e ts with
      | error fault =>
        rw [render_element, hsettle] at h
        cases h
      | ok result =>
        obtain ⟨stays, left⟩ := result
        obtain ⟨hbranch, -⟩ | ⟨condition, hbranch, -⟩ := settle_eq_ok.mp hsettle
        · exact Or.inl hbranch
        · exact Or.inr ⟨condition, hbranch⟩

/-- **Rendering goes through the first trees and then through the others**, if these begin with no
alternative of a chain. -/
theorem render_append {ts : List Tree} (hts : Fresh ts) (ss : List Tree) :
    render l expand (ss ++ ts) =
      (render l expand ss).bind fun done => (render l expand ts).map (done ++ ·) := by
  match ss with
  | [] =>
    rw [List.nil_append, render_nil]
    cases render l expand ts <;> rfl
  | .node kind children :: behind =>
    rw [List.cons_append]
    cases kind with
    | element e =>
      rw [render_element, render_element, settle_append hts]
      match hsettle : settle e behind with
      | .error fault => rfl
      | .ok (false, left) => exact render_append hts left
      | .ok (true, left) =>
        have hleft := render_append hts left
        simp only [Except.map]
        rw [hleft]
        cases placed l expand e children with
        | error fault => rfl
        | ok here =>
          cases render l expand left with
          | error fault => rfl
          | ok done =>
            cases render l expand ts with
            | error fault => rfl
            | ok out => exact congrArg Except.ok (List.append_assoc here done out).symm
    | _ =>
      have hbehind := render_append hts behind
      rw [render_of_none rfl, render_of_none rfl, hbehind]
      cases render l expand behind with
      | error fault => rfl
      | ok done => cases render l expand ts <;> rfl
termination_by Tree.sizeAll ss
decreasing_by
  all_goals simp only [Tree.sizeAll_cons, Tree.size_node]
  all_goals first
    | omega
    | have := sizeAll_of_settle hsettle; omega

/-! ## 3. Sources -/

variable {a b : Text} {ss ts : List Tree}

theorem renderWith_append (hbegins : b = [] ∨ Lexeme.beginsMarkup b = true)
    (ha : renderWith l expand a = .ok ss) (hb : renderWith l expand b = .ok ts) :
    renderWith l expand (a ++ b) = .ok (ss ++ ts) := by
  unfold renderWith at ha hb ⊢
  split at ha
  · exact absurd ha nofun
  · next as has =>
    split at hb
    · exact absurd hb nofun
    · next bs hbs =>
      rw [Tree.parse_append has hbs hbegins]
      dsimp only
      rw [render_append (fresh_of_render hb), ha, hb]
      rfl

/-- **A source renders to what its parts render to**, however deep components may nest. -/
theorem renderSource_append {limit : UInt64} {levels : Nat}
    (hbegins : b = [] ∨ Lexeme.beginsMarkup b = true)
    (ha : renderSource l limit levels a = .ok ss) (hb : renderSource l limit levels b = .ok ts) :
    renderSource l limit levels (a ++ b) = .ok (ss ++ ts) := by
  cases levels with
  | zero => exact renderWith_append hbegins ha hb
  | succ levels => exact renderWith_append hbegins ha hb

end Siblings

namespace Engine

/-- **Rendering is local**: a template that is put together of two parts renders to the markup of
the one and then the markup of the other, if each renders alone and the second is empty or begins
with markup. -/
theorem render_of_append {e : Engine} {a b x y : Text}
    (hbegins : b = [] ∨ Lexeme.beginsMarkup b = true) (ha : e.render a = .ok x)
    (hb : e.render b = .ok y) : e.render (a ++ b) = .ok (x ++ y) := by
  rw [render_eq] at ha hb ⊢
  obtain ⟨ss, hss, rfl⟩ := exists_of_map_eq_ok ha
  obtain ⟨ts, hts, rfl⟩ := exists_of_map_eq_ok hb
  rw [Siblings.renderSource_append hbegins hss hts, Except.map, Tree.printAll_append]

/-- A chain that nothing holds in before the seam, with a bare `<` at the end, and an element behind
it. -/
theorem render_seamSample :
    Lexeme.beginsMarkup "<b/>".toList = true ∧
      render {} "<a @if/>x<".toList = .ok "x<".toList ∧
      render {} "<b/>".toList = .ok "<b/>".toList ∧
      render {} ("<a @if/>x<".toList ++ "<b/>".toList) = .ok ("x<".toList ++ "<b/>".toList) := by
  have hbegins : Lexeme.beginsMarkup "<b/>".toList = true := rfl
  have ha : render {} "<a @if/>x<".toList = .ok "x<".toList := by decide +kernel
  have hb : render {} "<b/>".toList = .ok "<b/>".toList := by decide +kernel
  exact ⟨hbegins, ha, hb, render_of_append (Or.inr hbegins) ha hb⟩

end Engine

end Stencil
