/-
# Texts

A text is the list of its characters.  Everything this library reads or writes is a text, so that
every definition is a recursion on a list; only the outermost layer meets strings.

This module holds what all others cut texts with:

* `byteLength`, the size of a text in UTF-8, in which positions are counted;
* `sameFold`, equality with the case of ASCII letters aside;
* `breakBefore`, the one search: it stops before the first suffix that satisfies a test, and every
  other search (`breakOn?`) is made of it.

The main facts are that a cut loses nothing (`breakBefore_append`) and that it stops where the test
holds (`breakBefore_holds`).

On strings these are `len`, `eq_ignore_ascii_case`, `match_indices` with `find` behind it, and
`split_once`; `strip_prefix` is `after?`.
-/
namespace Stencil

/-- A text is the list of its characters. -/
abbrev Text := List Char

namespace Text

/-! ## 1. Size -/

/-- How many bytes a text takes in UTF-8. -/
def byteLength : Text → Nat
  | [] => 0
  | c :: t => c.utf8Size + byteLength t

@[simp] theorem byteLength_nil : byteLength [] = 0 := rfl

@[simp] theorem byteLength_cons (c : Char) (t : Text) :
    byteLength (c :: t) = c.utf8Size + byteLength t := rfl

@[simp] theorem byteLength_append (s t : Text) :
    byteLength (s ++ t) = byteLength s + byteLength t := by
  induction s with
  | nil => simp
  | cons c s ih => simp [ih, Nat.add_assoc]

theorem byteLength_pos {t : Text} (h : t ≠ []) : 0 < byteLength t := by
  cases t with
  | nil => exact absurd rfl h
  | cons c t => exact Nat.lt_of_lt_of_le c.utf8Size_pos (Nat.le_add_right _ _)

/-- Texts that end at the same byte of a text are the same. -/
theorem append_inj_of_byteLength {a b c d : Text} (h : a ++ b = c ++ d)
    (hlength : byteLength a = byteLength c) : a = c ∧ b = d := by
  induction a generalizing c with
  | nil =>
    cases c with
    | nil => exact ⟨rfl, h⟩
    | cons y c =>
      have hsize := Char.utf8Size_pos y
      rw [byteLength_nil, byteLength_cons] at hlength
      omega
  | cons x a ih =>
    cases c with
    | nil =>
      have hsize := Char.utf8Size_pos x
      rw [byteLength_nil, byteLength_cons] at hlength
      omega
    | cons y c =>
      obtain ⟨rfl, htail⟩ := List.cons.inj h
      rw [byteLength_cons, byteLength_cons] at hlength
      obtain ⟨rfl, rfl⟩ := ih htail (Nat.add_left_cancel hlength)
      exact ⟨rfl, rfl⟩

/-- A number in decimal digits. -/
def decimal (n : Nat) : Text := Nat.toDigits 10 n

/-! ## 2. Letter case -/

/-- The text with its ASCII capitals made small. -/
def fold (t : Text) : Text := t.map Char.toLower

/-- Two texts are the same, the case of ASCII letters aside. -/
def sameFold (s t : Text) : Bool := fold s == fold t

/-! ## 3. Cutting -/

/-- Splits a text before its first non-empty suffix that satisfies `p`; the second part is empty
if there is none. -/
def breakBefore (p : Text → Bool) : Text → Text × Text
  | [] => ([], [])
  | c :: t =>
    if p (c :: t) then ([], c :: t)
    else
      let r := breakBefore p t
      (c :: r.1, r.2)

/-- **A cut loses nothing.** -/
theorem breakBefore_append (p : Text → Bool) (t : Text) :
    (breakBefore p t).1 ++ (breakBefore p t).2 = t := by
  induction t with
  | nil => rfl
  | cons c t ih =>
    rw [breakBefore]
    split
    · rfl
    · simp only [List.cons_append, ih]

/-- **A cut stops where the test holds**, or at the end. -/
theorem breakBefore_holds (p : Text → Bool) (t : Text) :
    (breakBefore p t).2 = [] ∨ p (breakBefore p t).2 = true := by
  induction t with
  | nil => exact Or.inl rfl
  | cons c t ih =>
    rw [breakBefore]
    split
    · next h => exact Or.inr h
    · exact ih

/-- The second part of a cut is no longer than the text. -/
theorem length_breakBefore_le (p : Text → Bool) (t : Text) :
    (breakBefore p t).2.length ≤ t.length := by
  have h := congrArg List.length (breakBefore_append p t)
  rw [List.length_append] at h
  omega

/-- What follows `mark`, if the text begins with it. -/
def after? (mark t : Text) : Option Text :=
  if mark.isPrefixOf t then some (t.drop mark.length) else none

/-- What stands before and behind the first occurrence of `mark`. -/
def breakOn? (mark t : Text) : Option (Text × Text) :=
  match breakBefore mark.isPrefixOf t with
  | (_, []) => none
  | (before, found) => some (before, found.drop mark.length)

/-- The mark that was looked for is what was taken away. -/
theorem append_of_after? {mark t rest : Text} (h : after? mark t = some rest) :
    mark ++ rest = t := by
  unfold after? at h
  split at h
  · next hp =>
    obtain ⟨tail, rfl⟩ := List.isPrefixOf_iff_prefix.mp hp
    simp only [List.drop_left, Option.some.injEq] at h
    rw [h]
  · exact absurd h (by simp)

/-- **Splitting at a mark loses the mark alone.** -/
theorem append_of_breakOn? {mark t before rest : Text} (h : breakOn? mark t = some (before, rest)) :
    before ++ mark ++ rest = t := by
  have hall := breakBefore_append mark.isPrefixOf t
  have hstop := breakBefore_holds mark.isPrefixOf t
  unfold breakOn? at h
  cases hcut : breakBefore mark.isPrefixOf t with
  | mk before' found =>
    simp only [hcut] at h hall hstop
    cases found with
    | nil => exact absurd h (by simp)
    | cons c tail =>
      simp only [Option.some.injEq, Prod.mk.injEq] at h
      obtain ⟨rfl, rfl⟩ := h
      obtain ⟨rest, hrest⟩ :=
        List.isPrefixOf_iff_prefix.mp (hstop.resolve_left (List.cons_ne_nil c tail))
      rw [← hall, ← hrest, List.drop_left, List.append_assoc]

end Text

end Stencil
