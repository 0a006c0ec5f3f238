/-
# What comparisons say

A comparison between two operands without the characters of signs is recognised for sure, and says
what its sign says of the trimmed operands (`Comparison.Relates`, `Text.holds_exact`).

Equality goes two ways: numbers are compared where both operands are numbers, and texts elsewhere.
A relation made in this way need not be transitive, but this one is.  An operand has a key, which is
its value if it is a number, and else itself; operands agree if and only if their keys are the same
(`Comparison.valuesAgree_iff`), since a number and a text that is none are never the same text.  So
equality is an equivalence relation, and together with the relations of order it decides between any
two numbers (`Comparison.coherent`).
-/
import Stencil.Proofs.Condition.Numerals
import Stencil.Proofs.Condition.Signs

namespace Stencil

/-! ## 1. What the signs say -/

namespace Comparison

variable {a b : Text} {x y : Int}

/-- Both operands are numbers, and their values are related. -/
def Ordered (related : Int → Int → Prop) (a b : Text) : Prop :=
  ∃ x y, a.IsNumber x ∧ b.IsNumber y ∧ related x y

/-- Both operands are numbers of the same value, or not both are numbers and they are the same
text. -/
def Agree (a b : Text) : Prop :=
  (∃ x, a.IsNumber x ∧ b.IsNumber x) ∨ (¬ (∃ x y, a.IsNumber x ∧ b.IsNumber y) ∧ a = b)

/-- What a comparison says of two operands. -/
def Relates : Comparison → Text → Text → Prop
  | atMost => Ordered (· ≤ ·)
  | below => Ordered (· < ·)
  | atLeast => Ordered (· ≥ ·)
  | above => Ordered (· > ·)
  | notSame => fun a b => a ≠ b
  | notEqual => fun a b => ¬ Agree a b
  | same => fun a b => a = b
  | equal => Agree

theorem numbersRelate_iff {relation : Int → Int → Bool} :
    numbersRelate relation a b = true ↔ Ordered (fun x y => relation x y = true) a b := by
  simp only [Ordered, ← Text.number64?_eq_some_iff]
  unfold numbersRelate
  cases a.number64? <;> cases b.number64? <;> simp

theorem valuesAgree_iff_agree : valuesAgree a b = true ↔ Agree a b := by
  simp only [Agree, ← Text.number64?_eq_some_iff]
  unfold valuesAgree
  cases a.number64? with
  | none => simp
  | some x =>
    cases b.number64? with
    | none => simp
    | some y =>
      simp only [Option.some.injEq, beq_iff_eq]
      constructor
      · exact fun h => Or.inl ⟨x, rfl, h.symm⟩
      · rintro (⟨z, rfl, hy⟩ | ⟨hnone, -⟩)
        · exact hy.symm
        · exact absurd ⟨x, y, rfl, rfl⟩ hnone

/-- **A comparison holds if what it says is so.** -/
theorem holds_iff_relates (relation : Comparison) (a b : Text) :
    relation.holds a b = true ↔ relation.Relates a b := by
  cases relation with
  | same => exact beq_iff_eq
  | notSame => exact bne_iff_ne
  | equal => exact valuesAgree_iff_agree
  | notEqual =>
    rw [holds, Bool.not_eq_true', ← Bool.not_eq_true]
    exact not_congr valuesAgree_iff_agree
  | atMost => exact numbersRelate_iff.trans (by simp [Relates])
  | below => exact numbersRelate_iff.trans (by simp [Relates])
  | atLeast => exact numbersRelate_iff.trans (by simp [Relates])
  | above => exact numbersRelate_iff.trans (by simp [Relates])

end Comparison

/-- Between operands without signs, a condition is the comparison of the trimmed operands. -/
theorem Text.holds_signed {l r : Text} (hl : l.SignFree) (hr : r.SignFree)
    (relation : Comparison) :
    (l ++ relation.sign ++ r).holds = relation.holds (trim l) (trim r) := by
  rw [holds, Condition.read_signed hl hr]
  rfl

theorem Condition.mem_falseValues {t : Text} :
    t ∈ falseValues ↔ t = [] ∨ t = ['0'] ∨ t = ['f', 'a', 'l', 's', 'e'] := by
  simp [falseValues]

/-- **Each sign is recognised between operands without signs, and says of the trimmed operands what
it says; and a text without any sign holds unless it is empty, `0` or `false`.** -/
theorem Text.holds_exact :
    (∀ (relation : Comparison) (l r : Text), l.SignFree → r.SignFree →
      ((l ++ relation.sign ++ r).holds = true ↔ relation.Relates (trim l) (trim r))) ∧
    ∀ t : Text, (∀ relation : Comparison, ¬ relation.sign <:+: t) →
      (t.holds = false ↔ t = [] ∨ t = ['0'] ∨ t = ['f', 'a', 'l', 's', 'e']) := by
  constructor
  · intro relation l r hl hr
    rw [holds_signed hl hr]
    exact relation.holds_iff_relates _ _
  · intro t ht
    have hread : Condition.read t = .bare t := Condition.read_eq_iff.mpr (.bare ht)
    rw [holds, hread, Condition.holds, Bool.not_eq_false', List.contains_iff_mem]
    exact Condition.mem_falseValues

/-- Two spellings of one number, and a text with half of a sign in it. -/
theorem Text.holds_exact_samples :
    (SignFree " 2.50".toList ∧ SignFree "+2.5\t".toList ∧
      (holds (" 2.50".toList ++ Comparison.equal.sign ++ "+2.5\t".toList) = true ↔
        Comparison.equal.Relates (trim " 2.50".toList) (trim "+2.5\t".toList))) ∧
    (∀ relation : Comparison, ¬ relation.sign <:+: "a!b".toList) ∧
      (holds "a!b".toList = false ↔
        "a!b".toList = [] ∨ "a!b".toList = ['0'] ∨ "a!b".toList = ['f', 'a', 'l', 's', 'e']) := by
  have hl : SignFree " 2.50".toList := by decide
  have hr : SignFree "+2.5\t".toList := by decide
  have hnone : ∀ relation : Comparison, ¬ relation.sign <:+: "a!b".toList := by
    intro relation
    cases relation <;> decide
  exact ⟨⟨hl, hr, holds_exact.1 .equal _ _ hl hr⟩, hnone, holds_exact.2 _ hnone⟩

/-! ## 2. Keys -/

/-- What an operand is compared by: its value if it is a number, else itself. -/
def Text.key (t : Text) : Int ⊕ Text :=
  match t.number64? with
  | some x => .inl x
  | none => .inr t

namespace Comparison

variable {a b c : Text}

/-- **Operands agree if their keys are the same.** -/
theorem valuesAgree_iff : valuesAgree a b = true ↔ a.key = b.key := by
  unfold valuesAgree Text.key
  cases ha : a.number64? with
  | some x =>
    cases hb : b.number64? with
    | some y => simp
    | none =>
      -- a text that is no number is not the same as one that is
      have hne : a ≠ b := by
        rintro rfl
        cases ha.symm.trans hb
      simp [hne]
  | none =>
    cases hb : b.number64? with
    | some y =>
      have hne : a ≠ b := by
        rintro rfl
        cases ha.symm.trans hb
      simp [hne]
    | none => simp

theorem valuesAgree_self (a : Text) : valuesAgree a a = true := valuesAgree_iff.mpr rfl

theorem valuesAgree_comm (a b : Text) : valuesAgree a b = valuesAgree b a := by
  rw [Bool.eq_iff_iff, valuesAgree_iff, valuesAgree_iff]
  exact eq_comm

theorem valuesAgree_trans (h : valuesAgree a b = true) (h' : valuesAgree b c = true) :
    valuesAgree a c = true :=
  valuesAgree_iff.mpr ((valuesAgree_iff.mp h).trans (valuesAgree_iff.mp h'))

/-- The operands of a relation of order can change sides, with the relation turned round. -/
theorem numbersRelate_swap (relation : Int → Int → Bool) (a b : Text) :
    numbersRelate relation a b = numbersRelate (fun x y => relation y x) b a := by
  unfold numbersRelate
  cases a.number64? <;> cases b.number64? <;> rfl

theorem numbersRelate_trans {relation : Int → Int → Bool}
    (htrans : ∀ x y z, relation x y = true → relation y z = true → relation x z = true)
    (h : numbersRelate relation a b = true) (h' : numbersRelate relation b c = true) :
    numbersRelate relation a c = true := by
  obtain ⟨x, y, ha, hb, hxy⟩ := numbersRelate_iff.mp h
  obtain ⟨y', z, hb', hc, hyz⟩ := numbersRelate_iff.mp h'
  obtain rfl := hb.unique hb'
  exact numbersRelate_iff.mpr ⟨x, z, ha, hc, htrans x y z hxy hyz⟩

/-! ## 3. Coherence -/

/-- The condition that compares two operands holds. -/
def compares (relation : Comparison) (a b : Text) : Bool := (a ++ relation.sign ++ b).holds

/-- How the comparisons between three operands belong together. -/
structure Coherent (a b c : Text) : Prop where
  notEqual_eq : notEqual.compares a b = !equal.compares a b
  notSame_eq : notSame.compares a b = !same.compares a b
  equal_of_same : same.compares a b = true → equal.compares a b = true
  equal_refl : equal.compares a a = true
  equal_comm : equal.compares a b = equal.compares b a
  equal_trans : equal.compares a b = true → equal.compares b c = true →
    equal.compares a c = true
  below_eq_above : below.compares a b = above.compares b a
  atMost_eq_atLeast : atMost.compares a b = atLeast.compares b a
  /-- Of two numbers one is below the other, or they are equal, and there is no other case. -/
  trichotomy : (∃ x y, (Text.trim a).IsNumber x ∧ (Text.trim b).IsNumber y) →
    ((below.compares a b, equal.compares a b, above.compares a b) = (true, false, false) ∨
      (below.compares a b, equal.compares a b, above.compares a b) = (false, true, false) ∨
      (below.compares a b, equal.compares a b, above.compares a b) = (false, false, true)) ∧
    atMost.compares a b = (below.compares a b || equal.compares a b)
  /-- What is no number is not ordered. -/
  unordered : (¬ ∃ x y, (Text.trim a).IsNumber x ∧ (Text.trim b).IsNumber y) →
    below.compares a b = false ∧ atMost.compares a b = false ∧
      above.compares a b = false ∧ atLeast.compares a b = false
  below_trans : below.compares a b = true → below.compares b c = true → below.compares a c = true

theorem trichotomy_of_numbers {x y : Int} (ha : a.IsNumber x) (hb : b.IsNumber y) :
    ((below.holds a b, equal.holds a b, above.holds a b) = (true, false, false) ∨
      (below.holds a b, equal.holds a b, above.holds a b) = (false, true, false) ∨
      (below.holds a b, equal.holds a b, above.holds a b) = (false, false, true)) ∧
    atMost.holds a b = (below.holds a b || equal.holds a b) := by
  simp only [holds, numbersRelate, valuesAgree, Text.number64?_eq_some_iff.mpr ha,
    Text.number64?_eq_some_iff.mpr hb, Prod.mk.injEq, decide_eq_true_eq, decide_eq_false_iff_not,
    beq_iff_eq, beq_eq_false_iff_ne]
  rw [Bool.eq_iff_iff]
  simp only [decide_eq_true_eq, Bool.or_eq_true, beq_iff_eq]
  omega

theorem numbersRelate_of_none {relation : Int → Int → Bool}
    (h : ¬ ∃ x y, a.IsNumber x ∧ b.IsNumber y) : numbersRelate relation a b = false := by
  rw [← Bool.not_eq_true, numbersRelate_iff]
  rintro ⟨x, y, ha, hb, -⟩
  exact h ⟨x, y, ha, hb⟩

/-- **The comparisons between operands without signs are coherent.** -/
theorem coherent (ha : a.SignFree) (hb : b.SignFree) (hc : c.SignFree) : Coherent a b c := by
  constructor <;> simp only [compares, Text.holds_signed, ha, hb, hc]
  case notEqual_eq => rfl
  case notSame_eq => rfl
  case equal_of_same =>
    intro h
    rw [beq_iff_eq.mp h]
    exact valuesAgree_self _
  case equal_refl => exact valuesAgree_self _
  case equal_comm => exact valuesAgree_comm _ _
  case equal_trans => exact valuesAgree_trans
  case below_eq_above => exact numbersRelate_swap _ _ _
  case atMost_eq_atLeast => exact numbersRelate_swap _ _ _
  case trichotomy =>
    rintro ⟨x, y, hx, hy⟩
    exact trichotomy_of_numbers hx hy
  case unordered =>
    intro h
    exact ⟨numbersRelate_of_none h, numbersRelate_of_none h, numbersRelate_of_none h,
      numbersRelate_of_none h⟩
  case below_trans =>
    refine numbersRelate_trans fun x y z hxy hyz => ?_
    rw [decide_eq_true_eq] at hxy hyz ⊢
    exact hxy.trans hyz

/-- Two spellings of one number, and a text that is none. -/
theorem coherent_samples :
    Text.SignFree "1".toList ∧ Text.SignFree " 1.0".toList ∧ Text.SignFree "one".toList ∧
      Coherent "1".toList " 1.0".toList "one".toList := by
  have hfirst : Text.SignFree "1".toList := by decide
  have hsecond : Text.SignFree " 1.0".toList := by decide
  have hthird : Text.SignFree "one".toList := by decide
  exact ⟨hfirst, hsecond, hthird, coherent hfirst hsecond hthird⟩

end Comparison

end Stencil
