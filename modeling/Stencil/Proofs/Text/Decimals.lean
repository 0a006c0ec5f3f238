/-
# Numbers in decimal digits

A number is written in digits, without needless zeros in front (`Text.exists_decimal_eq`), and the
digits are read back as the number, however many there are (`Text.number?_decimal`).
-/
import Mathlib
import Stencil.Text.Reference

namespace Stencil.Text

theorem digitValue?_of_isDigit {c : Char} (h : c.isDigit = true) :
    digitValue? c = some (c.toNat - '0'.toNat) := by
  have hbounds : '0' ≤ c ∧ c ≤ '9' := by
    rw [Char.isDigit, Bool.and_eq_true, decide_eq_true_eq, decide_eq_true_eq] at h
    exact h
  rw [digitValue?, if_pos (by simpa using hbounds)]

/-- Reading digits behind a number. -/
theorem foldlM_addDigit? {digits : Text} (h : ∀ c ∈ digits, c.isDigit = true) (n : Nat) :
    digits.foldlM (addDigit? 10) n = some (Nat.ofDigitChars 10 digits n) := by
  induction digits generalizing n with
  | nil => rfl
  | cons c digits ih =>
    obtain ⟨hc, hdigits⟩ := List.forall_mem_cons.mp h
    have hvalue : c.toNat - '0'.toNat < 10 := by
      rw [Char.isDigit, Bool.and_eq_true, decide_eq_true_eq, decide_eq_true_eq] at hc
      have hlast : c.toNat ≤ 57 := hc.2
      have hzero : '0'.toNat = 48 := rfl
      omega
    have hadd : addDigit? 10 n c = some (10 * n + (c.toNat - '0'.toNat)) := by
      rw [addDigit?, digitValue?_of_isDigit hc]
      dsimp only
      rw [if_pos hvalue, Nat.mul_comm]
    rw [List.foldlM_cons, hadd, Nat.ofDigitChars_cons]
    exact ih hdigits _

theorem isDigit_of_mem_decimal {n : Nat} {c : Char} (h : c ∈ decimal n) : c.isDigit = true :=
  Nat.isDigit_of_mem_toDigits (by decide) (by decide) h

/-- **Digits are read as the number that they write.** -/
theorem number?_decimal (n : Nat) : number? 10 (decimal n) = some n := by
  have hne : (decimal n).isEmpty = false := by
    rw [List.isEmpty_eq_false_iff]
    exact Nat.toDigits_ne_nil
  rw [number?, if_neg (by simp [hne]), foldlM_addDigit? fun c => isDigit_of_mem_decimal]
  exact congrArg some Nat.ofDigitChars_ten_toDigits

/-- **The first digit is no zero**, unless it is the only one. -/
theorem exists_decimal_eq (n : Nat) :
    ∃ first more, decimal n = first :: more ∧ (first = '0' → more = []) := by
  induction n using Nat.strong_induction_on with
  | _ n ih =>
    by_cases hsmall : n < 10
    · exact ⟨n.digitChar, [], Nat.toDigits_of_lt_base hsmall, fun _ => rfl⟩
    · have hsplit : decimal n = decimal (n / 10) ++ [(n % 10).digitChar] := by
        rw [decimal, Nat.toDigits_eq_if (by decide), if_neg hsmall, decimal]
      obtain ⟨first, more, heq, hzero⟩ := ih (n / 10) (by omega)
      refine ⟨first, more ++ [(n % 10).digitChar], by rw [hsplit, heq]; rfl, fun hfirst => ?_⟩
      -- then the digits in front of the last write zero
      have hfront : decimal (n / 10) = decimal 0 := by rw [heq, hfirst, hzero hfirst]; rfl
      have hread := number?_decimal (n / 10)
      rw [hfront, number?_decimal] at hread
      have hfew := Option.some.inj hread
      omega

end Stencil.Text
