/-
# Searching in texts

Every search is made of one (`Text.breakBefore`), which stops in front of the first suffix that
satisfies a test.  What it has passed fails the test, and it passes the same when more text follows
that it does not reach.

A search for a mark finds the first place where the mark stands, if there is one
(`Text.breakOn?_eq_some_iff`, `Text.breakOn?_eq_none_iff`), and does so whatever follows the mark.
-/
import Mathlib
import Stencil.Text.Basic

namespace Stencil.Text

/-! ## 1. Where a search stops -/

variable {p : Text → Bool} {t r : Text}

theorem append_of_breakBefore {a b : Text} (h : breakBefore p t = (a, b)) : a ++ b = t := by
  have happend := breakBefore_append p t
  rwa [h] at happend

/-- A search passes all suffixes that fail the test, together with what follows them. -/
theorem breakBefore_append_eq (ht : ∀ s, s ≠ [] → s <:+ t → p (s ++ r) = false)
    (hr : r = [] ∨ p r = true) : breakBefore p (t ++ r) = (t, r) := by
  induction t with
  | nil =>
    rcases hr with rfl | hr
    · rfl
    · cases r with
      | nil => rfl
      | cons c r => rw [List.nil_append, breakBefore, if_pos hr]
  | cons c t ih =>
    have hhere : p (c :: t ++ r) = false := ht _ (List.cons_ne_nil c t) (List.suffix_refl _)
    have hbehind : breakBefore p (t ++ r) = (t, r) :=
      ih fun s hs hsuffix => ht s hs (hsuffix.trans (List.suffix_cons c t))
    rw [List.cons_append] at hhere ⊢
    rw [breakBefore, if_neg (by simp [hhere]), hbehind]

/-- What a search has passed fails the test, together with what follows it. -/
theorem not_of_breakBefore_eq (h : breakBefore p (t ++ r) = (t, r)) {s : Text} (hs : s ≠ [])
    (hsuffix : s <:+ t) : p (s ++ r) = false := by
  induction t with
  | nil => exact absurd (List.suffix_nil.mp hsuffix) hs
  | cons c t ih =>
    rw [List.cons_append, breakBefore] at h
    split at h
    · exact absurd (Prod.mk.inj h).1 (by simp)
    · next hhere =>
      obtain ⟨hfst, hsnd⟩ := Prod.mk.inj h
      rcases List.suffix_cons_iff.mp hsuffix with rfl | hsuffix
      · exact Bool.eq_false_iff.mpr hhere
      · exact ih (Prod.ext (List.cons.inj hfst).2 hsnd) hsuffix

/-- A search that does not come to the end stops where the test holds. -/
theorem holds_of_breakBefore {a f : Text} (h : breakBefore p t = (a, f)) (hf : f ≠ []) :
    p f = true := by
  have hholds := breakBefore_holds p t
  rw [h] at hholds
  exact hholds.resolve_left hf

/-- A search does not pass a place where the test holds. -/
theorem length_breakBefore_le_of_holds {a u : Text} (hu : u ≠ []) (h : p u = true) :
    (breakBefore p (a ++ u)).1.length ≤ a.length := by
  induction a with
  | nil =>
    obtain ⟨c, u, rfl⟩ := List.exists_cons_of_ne_nil hu
    rw [List.nil_append, breakBefore, if_pos h]
  | cons c a ih =>
    rw [List.cons_append, breakBefore]
    split
    · exact Nat.zero_le _
    · exact Nat.succ_le_succ ih

/-! ## 2. Marks -/

theorem isPrefixOf_append {mark : Text} (h : mark.isPrefixOf t = true) (r : Text) :
    mark.isPrefixOf (t ++ r) = true := by
  rw [List.isPrefixOf_iff_prefix] at h ⊢
  exact h.trans (List.prefix_append t r)

/-- A text that is long enough settles whether it begins with a mark. -/
theorem isPrefixOf_append_iff {mark : Text} (hlength : mark.length ≤ t.length) (r : Text) :
    mark.isPrefixOf (t ++ r) = mark.isPrefixOf t := by
  rw [Bool.eq_iff_iff, List.isPrefixOf_iff_prefix, List.isPrefixOf_iff_prefix]
  constructor
  · intro h
    exact List.prefix_of_prefix_length_le h (List.prefix_append t r) hlength
  · intro h
    exact h.trans (List.prefix_append t r)

theorem after?_append {mark rest : Text} (h : after? mark t = some rest) (r : Text) :
    after? mark (t ++ r) = some (rest ++ r) := by
  rw [← append_of_after? h, List.append_assoc]
  simp [after?]

theorem breakBefore_mark_append {mark a f : Text} (h : breakBefore mark.isPrefixOf t = (a, f))
    (hf : f ≠ []) (r : Text) : breakBefore mark.isPrefixOf (t ++ r) = (a, f ++ r) := by
  induction t generalizing a f with
  | nil => exact absurd (Prod.mk.inj h).2.symm hf
  | cons c t ih =>
    rw [breakBefore] at h
    rw [List.cons_append, breakBefore, ← List.cons_append]
    split at h
    · next hhere =>
      obtain ⟨rfl, rfl⟩ := Prod.mk.inj h
      rw [if_pos (isPrefixOf_append hhere r)]
    · next hhere =>
      cases htail : breakBefore mark.isPrefixOf t with
      | mk a' f' =>
        rw [htail] at h
        obtain ⟨rfl, rfl⟩ := Prod.mk.inj h
        -- the mark stands further right, so the text is longer than the mark
        have hle : mark.length ≤ (c :: t).length := by
          have hmark := (List.isPrefixOf_iff_prefix.mp (holds_of_breakBefore htail hf)).length_le
          have hshort := length_breakBefore_le mark.isPrefixOf t
          rw [htail] at hshort
          rw [List.length_cons]
          exact Nat.le_succ_of_le (Nat.le_trans hmark hshort)
        rw [if_neg (by rw [isPrefixOf_append_iff hle]; exact hhere), ih htail hf]

/-- A mark that was found is found in front of more text. -/
theorem breakOn?_append {mark a b : Text} (h : breakOn? mark t = some (a, b)) (r : Text) :
    breakOn? mark (t ++ r) = some (a, b ++ r) := by
  unfold breakOn? at h ⊢
  cases hcut : breakBefore mark.isPrefixOf t with
  | mk before found =>
    rw [hcut] at h
    cases found with
    | nil => exact absurd h (by simp)
    | cons c tail =>
      have hne := List.cons_ne_nil c tail
      have hle := (List.isPrefixOf_iff_prefix.mp (holds_of_breakBefore hcut hne)).length_le
      obtain ⟨rfl, rfl⟩ := Prod.mk.inj (Option.some.inj h)
      rw [breakBefore_mark_append hcut hne]
      refine congrArg some (Prod.ext rfl ?_)
      exact List.drop_append_of_le_length hle

/-- A mark is found where it stands, or further left. -/
theorem exists_breakOn? {mark : Text} (hmark : mark ≠ []) (a b : Text) :
    ∃ a' b', breakOn? mark (a ++ mark ++ b) = some (a', b') ∧ a'.length ≤ a.length := by
  have hfound : mark ++ b ≠ [] := mt List.append_eq_nil_iff.mp (not_and_of_not_left _ hmark)
  have hle := @length_breakBefore_le_of_holds mark.isPrefixOf a _ hfound (by simp)
  rw [← List.append_assoc] at hle
  unfold breakOn?
  cases hcut : breakBefore mark.isPrefixOf (a ++ mark ++ b) with
  | mk before found =>
    rw [hcut] at hle
    cases found with
    | cons c tail => exact ⟨before, _, rfl, hle⟩
    | nil =>
      -- then the search would have passed the mark
      have hall := congrArg List.length (append_of_breakBefore hcut)
      have hpos := List.length_pos_iff.mpr hmark
      simp only [List.length_append, List.length_nil] at hall hle
      omega

/-- **A mark is found if it stands anywhere.** -/
theorem breakOn?_eq_none_iff {mark : Text} (hmark : mark ≠ []) :
    breakOn? mark t = none ↔ ¬ mark <:+: t := by
  constructor
  · rintro h ⟨a, b, rfl⟩
    obtain ⟨a', b', hsome, -⟩ := exists_breakOn? hmark a b
    cases h.symm.trans hsome
  · intro h
    cases hfound : breakOn? mark t with
    | none => rfl
    | some r => exact absurd ⟨r.1, r.2, append_of_breakOn? hfound⟩ h

/-- **A text is split at the first place where the mark stands.** -/
theorem breakOn?_eq_some_iff {mark a b : Text} (hmark : mark ≠ []) :
    breakOn? mark t = some (a, b) ↔
      a ++ mark ++ b = t ∧ ∀ a' b', a' ++ mark ++ b' = t → a.length ≤ a'.length := by
  constructor
  · intro h
    refine ⟨append_of_breakOn? h, ?_⟩
    rintro a' b' rfl
    obtain ⟨a'', b'', hfound, hle⟩ := exists_breakOn? hmark a' b'
    obtain ⟨rfl, -⟩ := Prod.mk.inj (Option.some.inj (h.symm.trans hfound))
    exact hle
  · rintro ⟨rfl, hleast⟩
    obtain ⟨a', b', hfound, hle⟩ := exists_breakOn? hmark a b
    have hall := append_of_breakOn? hfound
    have hlength := Nat.le_antisymm hle (hleast a' b' hall)
    rw [List.append_assoc, List.append_assoc] at hall
    obtain ⟨rfl, hbehind⟩ := List.append_inj hall hlength
    rw [hfound, List.append_cancel_left hbehind]

/-- A character that stands behind a text, and not in it, is found behind it. -/
theorem breakOn?_of_not_mem {c : Char} {mark : Text} (ht : c ∉ t) (r : Text) :
    breakOn? (c :: mark) (t ++ (c :: mark) ++ r) = some (t, r) := by
  rw [breakOn?_eq_some_iff (List.cons_ne_nil _ _)]
  refine ⟨rfl, fun a b hall => ?_⟩
  by_contra hshort
  have hhere : a ++ [c] <+: t ++ ((c :: mark) ++ r) := by
    rw [← List.append_assoc, ← hall]
    exact ⟨mark ++ b, by simp⟩
  have hinside : a ++ [c] <+: t := by
    refine List.prefix_of_prefix_length_le hhere (List.prefix_append t _) ?_
    rw [List.length_append, List.length_singleton]
    omega
  exact ht (List.IsPrefix.subset hinside (by simp))

end Stencil.Text
