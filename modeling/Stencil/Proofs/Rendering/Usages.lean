/-
# Trees without usages

Components come into rendering by their usages alone.  Where no element among the trees is a usage,
the answer to usages is never asked for, and so it does not matter what it is
(`render_eq_of_unused`), nor how deep components may nest (`renderSource_eq_of_unused`).

A property of trees carries through rendering if it carries through chains, which take trees out and
take directives off.  So it is enough that it does not look at the directives of alternatives
(`Unbranched`).
-/
import Stencil.Proofs.Markup.Each
import Stencil.Proofs.Rendering.Siblings

namespace Stencil

open Stencil.Tree

/-! ## 1. What chains keep -/

namespace Siblings

/-- The property does not look at the place of an element in a chain. -/
def Unbranched (Q : NodeKind → List Tree → Prop) : Prop :=
  ∀ {e : Element} {children : List Tree}, Q (.element e) children →
    Q (.element e.withoutBranch) children

section Unbranched

variable {Q : NodeKind → List Tree → Prop} (hQ : Unbranched Q)

theorem eachAll_afterChosen {ts : List Tree} (h : EachAll Q ts) : EachAll Q (afterChosen ts) := by
  induction ts with
  | nil => exact h
  | cons t rest ih =>
    rw [afterChosen]
    split
    · exact ⟨h.1, ih h.2⟩
    · split
      · exact ih h.2
      · exact h

include hQ

theorem each_withoutBranch {t : Tree} (h : t.Each Q) :
    (t.mapElement Element.withoutBranch).Each Q := by
  obtain ⟨kind, children⟩ := t
  cases kind with
  | element e => exact ⟨hQ h.1, h.2⟩
  | _ => exact h

theorem eachAll_afterRejected {ts : List Tree} (h : EachAll Q ts) :
    EachAll Q (afterRejected ts) := by
  induction ts with
  | nil => exact h
  | cons t rest ih =>
    rw [afterRejected]
    split
    · exact ⟨h.1, ih h.2⟩
    · split
      · exact ⟨each_withoutBranch hQ h.1, h.2⟩
      · split
        · exact ⟨each_withoutBranch hQ h.1, eachAll_afterChosen h.2⟩
        · exact ih h.2
      · exact h

/-- **What a chain leaves has the property that all trees had.** -/
theorem eachAll_of_settle {e : Element} {behind left : List Tree} {stays : Bool}
    (hsettle : settle e behind = .ok (stays, left)) (h : EachAll Q behind) : EachAll Q left := by
  obtain ⟨-, -, rfl⟩ | ⟨condition, -, -, rfl⟩ := settle_eq_ok.mp hsettle
  · exact h
  · split
    · exact eachAll_afterChosen h
    · exact eachAll_afterRejected hQ h

end Unbranched

/-! ## 2. Trees without usages -/

/-- The node is no usage of a component. -/
def Unused (l : Library) (kind : NodeKind) (_ : List Tree) : Prop :=
  ∀ e, kind = .element e → l.lookup e.name = none

variable {l : Library}

theorem unbranched_unused (l : Library) : Unbranched (Unused l) := by
  rintro e children h _ ⟨⟩
  exact h e rfl

/-- **The answer to usages does not matter** where there are none. -/
theorem render_eq_of_unused {ts : List Tree} (h : EachAll (Unused l) ts)
    (expand expand' : Expansion) : render l expand ts = render l expand' ts := by
  match ts with
  | [] => rw [render_nil, render_nil]
  | .node kind children :: behind =>
    obtain ⟨⟨hkind, hchildren⟩, hbehind⟩ := h
    cases kind with
    | element e =>
      rw [render_element, render_element]
      match hsettle : settle e behind with
      | .error fault => rfl
      | .ok (stays, left) =>
        have hleft := render_eq_of_unused (eachAll_of_settle (unbranched_unused l) hsettle hbehind)
          expand expand'
        have hplaced : placed l expand e children = placed l expand' e children := by
          rw [placed, placed, hkind e rfl]
          exact congrArg (Except.map _) (render_eq_of_unused hchildren expand expand')
        cases stays with
        | false => exact hleft
        | true => simp only [hplaced, hleft]
    | _ =>
      have hleft := render_eq_of_unused hbehind expand expand'
      rw [render_of_none rfl, render_of_none rfl, hleft]
termination_by sizeAll ts
decreasing_by
  all_goals simp only [sizeAll_cons, size_node]
  all_goals first
    | omega
    | have := sizeAll_of_settle hsettle; omega

/-- **A source without usages renders alike, however deep components may nest.** -/
theorem renderSource_eq_of_unused {source : Text} {ts : List Tree}
    (hparse : Tree.parse source = .ok ts) (h : EachAll (Unused l) ts) (limit : UInt64)
    (levels levels' : Nat) :
    renderSource l limit levels source = renderSource l limit levels' source := by
  obtain ⟨expand, hlevels⟩ := exists_renderSource_eq l limit levels
  obtain ⟨expand', hlevels'⟩ := exists_renderSource_eq l limit levels'
  rw [hlevels, hlevels', renderWith, renderWith, hparse]
  exact render_eq_of_unused h expand expand'

end Siblings

end Stencil
