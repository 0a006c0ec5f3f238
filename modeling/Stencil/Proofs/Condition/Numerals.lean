/-
# Numerals

A numeral is an optional sign, and digits with at most one point among them: behind some digits,
with digits behind it or none, or in front of all of them.  `Numeral t d` says this of a text
without reading it, and `d` is the decimal that the text writes.

Reading finds the sign and the first point, and then looks at what is left.  It accepts exactly the
numerals, and gives the decimals that they write (`Decimal.read?_eq_some_iff`).  So a text is a
number, of a certain value, if it is a numeral whose value is finite (`Text.number64?_eq_some_iff`),
and it has one value at most.
-/
import Stencil.Condition.Number
import Stencil.Proofs.Text.Search

namespace Stencil

/-! ## 1. The grammar of numerals -/

/-- The text holds nothing but digits. -/
def Text.AllDigits (t : Text) : Prop := ∀ c ∈ t, c.isDigit = true

/-- `Unsigned t digits places`: a text without a sign, the digits in it, and how many of them stand
behind its point. -/
inductive Unsigned : Text → Text → Nat → Prop
  | whole {t : Text} (hne : t ≠ []) (ht : t.AllDigits) : Unsigned t t 0
  | point {t u : Text} (hne : t ≠ []) (ht : t.AllDigits) (hu : u.AllDigits) :
    Unsigned (t ++ '.' :: u) (t ++ u) u.length
  | bare {u : Text} (hne : u ≠ []) (hu : u.AllDigits) : Unsigned ('.' :: u) u u.length

/-- `Numeral t d`: the text writes the decimal. -/
inductive Numeral : Text → Decimal → Prop
  | plain {t digits : Text} {places : Nat} (h : Unsigned t digits places) :
    Numeral t ⟨false, digits, places⟩
  | plus {t digits : Text} {places : Nat} (h : Unsigned t digits places) :
    Numeral ('+' :: t) ⟨false, digits, places⟩
  | minus {t digits : Text} {places : Nat} (h : Unsigned t digits places) :
    Numeral ('-' :: t) ⟨true, digits, places⟩

/-- The text is a number, of the given value: a numeral whose value is finite. -/
def Text.IsNumber (t : Text) (value : Int) : Prop := ∃ d, Numeral t d ∧ d.value? = some value

/-! ## 2. Reading numerals -/

namespace Decimal

/-- What follows the sign, read as the digits in front of the point and behind it. -/
def readUnsigned? (negative : Bool) (t : Text) : Option Decimal :=
  let (whole, fraction) := (Text.breakOn? ['.'] t).getD (t, [])
  if whole = [] ∧ fraction = [] then none
  else if (whole ++ fraction).all Char.isDigit then
    some ⟨negative, whole ++ fraction, fraction.length⟩
  else none

theorem read?_eq (t : Text) : read? t = readUnsigned? (readSign t).1 (readSign t).2 := rfl

variable {negative : Bool} {t digits : Text} {places : Nat}

theorem point_not_mem (h : t.AllDigits) : '.' ∉ t := fun hmem => absurd (h _ hmem) (by decide)

theorem breakOn?_point_of_digits (h : t.AllDigits) : Text.breakOn? ['.'] t = none := by
  rw [Text.breakOn?_eq_none_iff (List.cons_ne_nil _ _)]
  intro hpoint
  exact point_not_mem h (hpoint.subset List.mem_cons_self)

/-- Behind digits, the point is the first. -/
theorem breakOn?_point (h : t.AllDigits) (u : Text) :
    Text.breakOn? ['.'] (t ++ '.' :: u) = some (t, u) := by
  have hfound := @Text.breakOn?_of_not_mem t '.' [] (point_not_mem h) u
  rwa [List.append_assoc, List.singleton_append] at hfound

theorem readUnsigned?_of_unsigned (h : Unsigned t digits places) :
    readUnsigned? negative t = some ⟨negative, digits, places⟩ := by
  have hall : ∀ {u : Text}, u.AllDigits → u.all Char.isDigit = true := List.all_eq_true.mpr
  unfold readUnsigned?
  cases h with
  | whole hne ht =>
    rw [breakOn?_point_of_digits ht]
    simp [hne, hall ht]
  | point hne ht hu =>
    rw [breakOn?_point ht]
    simp [hne, hall ht, hall hu]
  | bare hne hu =>
    have hpoint := @breakOn?_point [] (fun c hc => absurd hc List.not_mem_nil) digits
    rw [List.nil_append] at hpoint
    rw [hpoint]
    simp [hne, hall hu]

theorem unsigned_of_readUnsigned? {d : Decimal} (h : readUnsigned? negative t = some d) :
    ∃ digits places, d = ⟨negative, digits, places⟩ ∧ Unsigned t digits places := by
  unfold readUnsigned? at h
  cases hpoint : Text.breakOn? ['.'] t with
  | none =>
    rw [hpoint] at h
    dsimp only [Option.getD_none] at h
    split at h
    · cases h
    · next hne =>
      split at h
      · next hall =>
        rw [List.append_nil] at hall h
        have ht : t ≠ [] := fun hnil => hne ⟨hnil, rfl⟩
        exact ⟨t, 0, (Option.some.inj h).symm, .whole ht (List.all_eq_true.mp hall)⟩
      · cases h
  | some r =>
    obtain ⟨whole, fraction⟩ := r
    rw [hpoint] at h
    dsimp only [Option.getD_some] at h
    have htext := Text.append_of_breakOn? hpoint
    rw [List.append_assoc, List.singleton_append] at htext
    split at h
    · cases h
    · next hne =>
      split at h
      · next hall =>
        rw [List.all_append, Bool.and_eq_true, List.all_eq_true, List.all_eq_true] at hall
        obtain ⟨hwhole, hfraction⟩ := hall
        refine ⟨whole ++ fraction, fraction.length, (Option.some.inj h).symm, ?_⟩
        rw [← htext]
        by_cases hnil : whole = []
        · subst hnil
          exact .bare (fun hnil => hne ⟨rfl, hnil⟩) hfraction
        · exact .point hnil hwhole hfraction
      · cases h

/-- A text without a sign does not begin with one. -/
theorem readSign_of_unsigned (h : Unsigned t digits places) : readSign t = (false, t) := by
  have hdigit : ∀ {u : Text}, u ≠ [] → u.AllDigits → ∀ v, readSign (u ++ v) = (false, u ++ v) := by
    intro u hne hu v
    obtain ⟨c, u, rfl⟩ := List.exists_cons_of_ne_nil hne
    have hc : c.isDigit = true := hu c List.mem_cons_self
    rw [List.cons_append]
    unfold readSign
    split
    · next heq =>
      obtain ⟨rfl, -⟩ := List.cons.inj heq
      exact absurd hc (by decide)
    · next heq =>
      obtain ⟨rfl, -⟩ := List.cons.inj heq
      exact absurd hc (by decide)
    · rfl
  cases h with
  | whole hne ht =>
    have hsign := hdigit hne ht []
    rwa [List.append_nil] at hsign
  | point hne ht _ => exact hdigit hne ht _
  | bare => rfl

/-- **Reading accepts the numerals and nothing else.** -/
theorem read?_eq_some_iff {d : Decimal} : read? t = some d ↔ Numeral t d := by
  rw [read?_eq]
  constructor
  · intro h
    obtain ⟨digits, places, rfl, hunsigned⟩ := unsigned_of_readUnsigned? h
    unfold readSign at hunsigned ⊢
    split at hunsigned
    · exact .minus hunsigned
    · exact .plus hunsigned
    · exact .plain hunsigned
  · intro h
    cases h with
    | plain h =>
      rw [readSign_of_unsigned h]
      exact readUnsigned?_of_unsigned h
    | plus h => exact readUnsigned?_of_unsigned h
    | minus h => exact readUnsigned?_of_unsigned h

example : Numeral "-.50".toList ⟨true, "50".toList, 2⟩ := read?_eq_some_iff.mp (by decide)

end Decimal

/-! ## 3. Numbers -/

namespace Text

variable {t : Text} {x y : Int}

/-- **The numbers are the numerals whose value is finite.** -/
theorem number64?_eq_some_iff : t.number64? = some x ↔ t.IsNumber x := by
  rw [number64?, Option.bind_eq_some_iff]
  exact exists_congr fun d => and_congr_left' Decimal.read?_eq_some_iff

/-- A number has one value. -/
theorem IsNumber.unique (h : t.IsNumber x) (h' : t.IsNumber y) : x = y :=
  Option.some.inj ((number64?_eq_some_iff.mpr h).symm.trans (number64?_eq_some_iff.mpr h'))

end Text

end Stencil
