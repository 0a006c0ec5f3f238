/-
# Trimmed texts

The compact layout takes the white space off both ends of a text and puts one space back where the
blank next to the text was on its line.  What is left of the blanks at an end is therefore nothing
or one space, and this is left alone when the text is trimmed again (`Layout.compacted_compacted`).

A space that was put back is not the blank that stood there.  For a run of text this makes no
difference (`Layout.plain_compacted`).  For the content of a raw element it may: only the blanks of
markup and the form feed end the name in an end tag, so that `</script` with another blank behind it
is content, and with a space behind it is the end tag.  If the content does not end so, it does not
hold its end tag after trimming either (`Layout.holdsNoEnd_compacted`).  If it does, then it is cut
off there (`Layout.compacted_of_endsOpen`).
-/
import Stencil.Markup.Print
import Stencil.Proofs.Markup.Canonical

namespace Stencil

open Layout (spaceFor compacted)

/-! ## 1. Blanks at the ends -/

namespace Text

/-- The text is `core` with blanks around it, and `core` neither begins nor ends with one. -/
structure Enclosed (before core behind t : Text) : Prop where
  text_eq : t = before ++ core ++ behind
  before_blank : ∀ c ∈ before, isBlank c = true
  behind_blank : ∀ c ∈ behind, isBlank c = true
  core_ne : core ≠ []
  head_core : core.head?.all fun c => !isBlank c
  last_core : core.getLast?.all fun c => !isBlank c

variable {before core behind t : Text}

theorem head?_dropWhile_all (p : Char → Bool) (t : Text) :
    (t.dropWhile p).head?.all fun c => !p c := by
  have hnot := List.head?_dropWhile_not p t
  cases hhead : (t.dropWhile p).head? with
  | none => rfl
  | some c =>
    rw [hhead] at hnot
    simpa using hnot

/-- **A text is what is left of it when it is trimmed, with blanks around it**, if anything is
left. -/
theorem exists_enclosed (h : trim t ≠ []) : ∃ before behind, Enclosed before (trim t) behind t := by
  have hlast : (trim t).getLast?.all fun c => !isBlank c := by
    rw [trim, dropEndWhile, List.getLast?_reverse]
    exact head?_dropWhile_all _ _
  have hfirst := head?_dropWhile_all isBlank t
  have hbehind : trim t ++ ((t.dropWhile isBlank).reverse.takeWhile isBlank).reverse =
      t.dropWhile isBlank := by
    rw [trim, dropEndWhile, ← List.reverse_append, List.takeWhile_append_dropWhile,
      List.reverse_reverse]
  refine ⟨t.takeWhile isBlank, ((t.dropWhile isBlank).reverse.takeWhile isBlank).reverse, ?_,
    fun c => List.mem_takeWhile_imp, ?_, h, ?_, hlast⟩
  · rw [List.append_assoc, hbehind, List.takeWhile_append_dropWhile]
  · intro c hc
    exact List.mem_takeWhile_imp (List.mem_reverse.mp hc)
  · rw [← hbehind, List.head?_append_of_ne_nil _ h] at hfirst
    exact hfirst

section Enclosed

variable (h : Enclosed before core behind t)

include h

theorem Enclosed.head_append : (core ++ behind).head?.all fun c => !isBlank c := by
  rw [List.head?_append_of_ne_nil _ h.core_ne]
  exact h.head_core

theorem Enclosed.head_reverse : (core.reverse ++ before.reverse).head?.all fun c => !isBlank c := by
  have hne : core.reverse ≠ [] := mt List.reverse_eq_nil_iff.mp h.core_ne
  rw [List.head?_append_of_ne_nil _ hne, List.head?_reverse]
  exact h.last_core

theorem Enclosed.reverse_eq : t.reverse = behind.reverse ++ (core.reverse ++ before.reverse) := by
  rw [h.text_eq, List.reverse_append, List.reverse_append]

theorem Enclosed.trim_eq : trim t = core := by
  have hbehind : ∀ c ∈ behind.reverse, isBlank c = true :=
    fun c hc => h.behind_blank c (List.mem_reverse.mp hc)
  have hlast : core.reverse.head?.all fun c => !isBlank c := by
    rw [List.head?_reverse]
    exact h.last_core
  rw [trim, h.text_eq, List.append_assoc, (takeWhile_append_eq h.before_blank h.head_append).2,
    dropEndWhile, List.reverse_append, (takeWhile_append_eq hbehind hlast).2, List.reverse_reverse]

/-- **What trimming leaves of a text**: the core, and a space for the blanks at each end. -/
theorem Enclosed.compacted_eq :
    compacted t = spaceFor before.getLast? ++ core ++ spaceFor behind.head? := by
  have hbehind : ∀ c ∈ behind.reverse, isBlank c = true :=
    fun c hc => h.behind_blank c (List.mem_reverse.mp hc)
  have hbefore : t.takeWhile isBlank = before := by
    rw [h.text_eq, List.append_assoc]
    exact (takeWhile_append_eq h.before_blank h.head_append).1
  have hend : t.reverse.takeWhile isBlank = behind.reverse := by
    rw [h.reverse_eq]
    exact (takeWhile_append_eq hbehind h.head_reverse).1
  rw [compacted, h.trim_eq, if_neg h.core_ne, hbefore, hend, List.getLast?_reverse]

end Enclosed

end Text

namespace Layout

variable {t : Text}

theorem compacted_of_trim (h : Text.trim t = []) : compacted t = [] := by
  rw [compacted, if_pos h]

/-- There is nothing or a space. -/
theorem spaceFor_cases (edge : Option Char) : spaceFor edge = [] ∨ spaceFor edge = [' '] := by
  unfold spaceFor
  split
  · exact Or.inr rfl
  · exact Or.inl rfl

/-- **A trimmed text stays as it is when it is trimmed again.** -/
theorem compacted_compacted (t : Text) : compacted (compacted t) = compacted t := by
  by_cases hcore : Text.trim t = []
  · rw [compacted_of_trim hcore]
    rfl
  · obtain ⟨before, behind, h⟩ := Text.exists_enclosed hcore
    have hblank : ∀ edge, ∀ c ∈ spaceFor edge, Text.isBlank c = true := by
      intro edge c hc
      rcases spaceFor_cases edge with hspace | hspace
      · rw [hspace] at hc
        exact absurd hc List.not_mem_nil
      · rw [hspace] at hc
        obtain rfl := List.mem_singleton.mp hc
        decide
    have hagain : Text.Enclosed (spaceFor before.getLast?) (Text.trim t) (spaceFor behind.head?)
        (compacted t) :=
      ⟨h.compacted_eq, hblank _, hblank _, h.core_ne, h.head_core, h.last_core⟩
    have hlast : ∀ edge, spaceFor (spaceFor edge).getLast? = spaceFor edge := by
      intro edge
      rcases spaceFor_cases edge with hspace | hspace <;> rw [hspace] <;> rfl
    have hhead : ∀ edge, spaceFor (spaceFor edge).head? = spaceFor edge := by
      intro edge
      rcases spaceFor_cases edge with hspace | hspace <;> rw [hspace] <;> rfl
    rw [hagain.compacted_eq, hlast, hhead, h.compacted_eq]

/-- A trimmed text is printed as it is, in any layout. -/
theorem apply_compacted (layout : Layout) (t : Text) :
    layout.apply (compacted t) = compacted t := by
  cases layout with
  | verbatim => rfl
  | compact => exact compacted_compacted t

end Layout

/-! ## 2. Runs of text -/

namespace Lexeme

/-- A part of a run of text is one. -/
theorem Plain.infix {a t b : Text} (h : Plain (a ++ t ++ b)) : Plain t := by
  intro s hs
  cases hbegins : beginsMarkup s with
  | false => rfl
  | true =>
    obtain ⟨u, rfl⟩ := hs
    have hsuffix : s ++ b <:+ a ++ (u ++ s) ++ b := ⟨a ++ u, by simp⟩
    have hnot := h _ hsuffix
    rw [beginsMarkup_append hbegins] at hnot
    cases hnot

/-- A space opens no markup together with a `<`. -/
theorem beginsMarkup_space {s : Text} (h : beginsMarkup s = false) :
    beginsMarkup (s ++ [' ']) = false := by
  match s, h with
  | [], _ => rfl
  | [c], _ =>
    by_cases hc : c = '<'
    · subst hc
      rfl
    · exact beginsMarkup_of_ne hc _
  | c :: d :: s, h =>
    by_cases hc : c = '<'
    · subst hc
      rw [beginsMarkup_lt] at h
      rw [List.cons_append, List.cons_append, beginsMarkup_lt]
      cases s with
      | nil => simp_all
      | cons e s => exact h
    · exact beginsMarkup_of_ne hc _

theorem Plain.space {t : Text} (h : Plain t) : Plain (t ++ [' ']) := by
  intro s hs
  rcases List.suffix_concat_iff.mp hs with rfl | ⟨u, rfl, hu⟩
  · rfl
  · exact beginsMarkup_space (h u hu)

end Lexeme

/-- A run of text stays one when it is trimmed. -/
theorem Layout.plain_compacted {t : Text} (h : Lexeme.Plain t) : Lexeme.Plain (compacted t) := by
  by_cases hcore : Text.trim t = []
  · rw [compacted_of_trim hcore]
    exact Lexeme.plain_nil
  · obtain ⟨before, behind, henclosed⟩ := Text.exists_enclosed hcore
    rw [henclosed.text_eq] at h
    have hplain : Lexeme.Plain (Text.trim t ++ spaceFor behind.head?) := by
      rcases spaceFor_cases behind.head? with hspace | hspace
      · rw [hspace, List.append_nil]
        exact h.infix
      · rw [hspace]
        exact h.infix.space
    rw [henclosed.compacted_eq, List.append_assoc]
    refine hplain.append fun hmem => ?_
    rcases spaceFor_cases before.getLast? with hspace | hspace
    · rw [hspace] at hmem
      exact absurd hmem List.not_mem_nil
    · rw [hspace] at hmem
      exact absurd hmem (by decide)

/-! ## 3. The content of raw elements -/

namespace Lexeme

/-- The content of a raw element ends in `</` with the name of the element, in any case, and white
space behind it. -/
def EndsOpen (name body : Text) : Prop :=
  ∃ before n behind, body = before ++ '<' :: '/' :: (n ++ behind) ∧
    Text.sameFold n name = true ∧ behind ≠ [] ∧ ∀ c ∈ behind, Text.isBlank c = true

section Content

variable {name a b body : Text}

/-- A part of what does not hold the end tag does not hold it. -/
theorem HoldsNoEnd.infix (h : HoldsNoEnd name (a ++ body ++ b)) : HoldsNoEnd name body := by
  rintro before n after c rfl hname
  refine h (a ++ before) n (after ++ b) c ?_ hname
  simp

/-- A space in front makes no end tag. -/
theorem HoldsNoEnd.space (h : HoldsNoEnd name body) (edge : Option Char) :
    HoldsNoEnd name (spaceFor edge ++ body) := by
  rcases Layout.spaceFor_cases edge with hspace | hspace
  · rwa [hspace]
  · rw [hspace]
    intro before n after c heq hname
    cases before with
    | nil => exact absurd (List.cons.inj heq).1 (by decide)
    | cons d before => exact h before n after c (List.cons.inj heq).2 hname

/-- A space at the end makes an end tag only of one that was begun there. -/
theorem HoldsNoEnd.append_space (h : HoldsNoEnd name body)
    (hopen : ∀ before n, body = before ++ '<' :: '/' :: n → Text.sameFold n name = false) :
    HoldsNoEnd name (body ++ [' ']) := by
  intro before n after c heq hname
  rcases List.eq_nil_or_concat after with rfl | ⟨after, d, rfl⟩
  · have hsplit : body ++ [' '] = (before ++ '<' :: '/' :: n) ++ [c] := by
      rw [heq]
      simp
    obtain ⟨hbody, -⟩ := List.append_inj' hsplit rfl
    cases hname.symm.trans (hopen before n hbody)
  · have hsplit : body ++ [' '] = (before ++ '<' :: '/' :: (n ++ c :: after)) ++ [d] := by
      rw [heq]
      simp
    obtain ⟨hbody, -⟩ := List.append_inj' hsplit rfl
    exact h before n after c hbody hname

end Content

end Lexeme

namespace Layout

open Lexeme (HoldsNoEnd EndsOpen)

variable {name body : Text}

/-- **What does not hold its end tag, and does not end in one that was begun, does not hold it when
it is trimmed.** -/
theorem holdsNoEnd_compacted (h : HoldsNoEnd name body) (hopen : ¬ EndsOpen name body) :
    HoldsNoEnd name (compacted body) := by
  by_cases hcore : Text.trim body = []
  · rw [compacted_of_trim hcore]
    exact Lexeme.holdsNoEnd_of_not_mem List.not_mem_nil name
  · obtain ⟨before, behind, henclosed⟩ := Text.exists_enclosed hcore
    have heq := henclosed.text_eq
    rw [heq] at h
    rw [henclosed.compacted_eq, List.append_assoc]
    refine HoldsNoEnd.space ?_ _
    rcases spaceFor_cases behind.head? with hspace | hspace
    · rw [hspace, List.append_nil]
      exact h.infix
    · rw [hspace]
      refine h.infix.append_space fun pre n hpre => Bool.eq_false_iff.mpr fun hname => hopen ?_
      refine ⟨before ++ pre, n, behind, ?_, hname, ?_, henclosed.behind_blank⟩
      · rw [heq, hpre]
        simp
      · rintro rfl
        exact absurd hspace (by decide)

/-- Letters are not blank. -/
theorem not_isBlank_of_isAlpha {c : Char} (h : c.isAlpha = true) : Text.isBlank c = false := by
  simp only [Char.isAlpha, Char.isUpper, Char.isLower, Bool.or_eq_true, Bool.and_eq_true,
    decide_eq_true_eq, ge_iff_le, UInt32.le_iff_toNat_le] at h
  have hnumber : c.val.toNat = c.toNat := rfl
  simp [hnumber] at h
  simp [Text.isBlank, Text.blankRanges]
  omega

/-- The blank behind a name that is no end tag keeps a space: it is no line break. -/
theorem spaceFor_of_not_endsRawName {c : Char} (hblank : Text.isBlank c = true)
    (hends : Lexeme.endsRawName c = false) : spaceFor (some c) = [' '] := by
  have hline : c ≠ '\n' ∧ c ≠ '\r' := by
    constructor
    · rintro rfl
      exact absurd hends (by decide)
    · rintro rfl
      exact absurd hends (by decide)
  simp [spaceFor, keepsSpace, hblank, hline]

/-- **What ends in its end tag, as far as white space goes, is trimmed to it**, with a space behind
the name. -/
theorem compacted_of_endsOpen (hraw : isRawName name = true) (h : HoldsNoEnd name body)
    (hopen : EndsOpen name body) : ∃ pre n, compacted body = pre ++ '<' :: '/' :: (n ++ [' ']) ∧
      HoldsNoEnd name pre ∧ Text.sameFold n name = true := by
  obtain ⟨before, n, behind, rfl, hname, hne, hbehind⟩ := hopen
  obtain ⟨c, behind, rfl⟩ := List.exists_cons_of_ne_nil hne
  have hends : Lexeme.endsRawName c = false := h before n behind c rfl hname
  obtain ⟨hnil, hletters⟩ := Lexeme.isAlpha_of_isRawName hraw hname
  have hfirst := Text.head?_dropWhile_all Text.isBlank before
  have henclosed : Text.Enclosed (before.takeWhile Text.isBlank)
      (before.dropWhile Text.isBlank ++ '<' :: '/' :: n) (c :: behind)
      (before ++ '<' :: '/' :: (n ++ c :: behind)) := by
    refine ⟨?_, fun c => List.mem_takeWhile_imp, hbehind, by simp, ?_, ?_⟩
    · rw [← List.append_assoc, List.takeWhile_append_dropWhile]
      simp
    · rw [List.head?_append]
      cases hhead : (before.dropWhile Text.isBlank).head? with
      | none => rfl
      | some d =>
        rw [hhead] at hfirst
        exact hfirst
    · obtain ⟨init, d, rfl⟩ := List.eq_nil_or_concat n |>.resolve_left hnil
      have hd : Text.isBlank d = false := not_isBlank_of_isAlpha (hletters d (by simp))
      have hlast : (before.dropWhile Text.isBlank ++ '<' :: '/' :: (init ++ [d])).getLast? =
          some d := by
        simp [List.getLast?_append, List.getLast?_cons]
      simp [hlast, hd]
  refine ⟨spaceFor (before.takeWhile Text.isBlank).getLast? ++ before.dropWhile Text.isBlank, n, ?_,
    HoldsNoEnd.space ?_ _, hname⟩
  · rw [henclosed.compacted_eq, List.head?_cons,
      spaceFor_of_not_endsRawName (hbehind c List.mem_cons_self) hends]
    simp
  · rw [henclosed.text_eq, ← List.append_assoc, List.append_assoc] at h
    exact h.infix

end Layout

end Stencil
