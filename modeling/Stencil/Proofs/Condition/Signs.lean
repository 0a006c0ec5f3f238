/-
# How a condition is recognised

Which comparison a condition writes can be said without a search: it is the first one, in the order
of `Comparison.all`, whose sign stands anywhere in the text, and the text is parted at the first
place where this sign stands.  If there is no sign in the text, it is a bare value.
`Condition.Writes` says so, and a text is read as exactly what it writes
(`Condition.read_eq_iff`).

Some signs begin with others, or end with them, so that the order matters.  It is a good one: a sign
is looked for before all signs that stand in it, or else it would never be found
(`Comparison.not_infix_of_mem_takeWhile`).  So between two texts without the four characters that
signs are made of, each sign is recognised as what it is (`Condition.read_signed`).
-/
import Stencil.Condition.Comparison
import Stencil.Proofs.Text.Search

namespace Stencil

/-! ## 1. Signs -/

namespace Comparison

variable {relation relation' : Comparison}

/-- The characters that signs are made of. -/
def signChars : Text := ['<', '>', '=', '!']

theorem sign_ne_nil (relation : Comparison) : relation.sign ≠ [] := by
  cases relation <;> exact List.cons_ne_nil _ _

theorem mem_signChars (relation : Comparison) : ∀ c ∈ relation.sign, c ∈ signChars := by
  cases relation <;> simp [sign, signChars]

/-- Each comparison has its place among all. -/
theorem exists_all_eq (relation : Comparison) :
    ∃ later, all = all.takeWhile (· != relation) ++ relation :: later := by
  cases relation <;> exact ⟨_, rfl⟩

theorem mem_all (relation : Comparison) : relation ∈ all := by
  cases relation <;> decide

/-- The comparisons in front of one do not depend on how it was come upon. -/
theorem takeWhile_eq {earlier later : List Comparison} (h : all = earlier ++ relation :: later) :
    all.takeWhile (· != relation) = earlier := by
  have hnodup : all.Nodup := by decide
  rw [h] at hnodup ⊢
  have hne : ∀ other ∈ earlier, (other != relation) = true := by
    intro other hother
    rw [bne_iff_ne]
    rintro rfl
    exact List.disjoint_of_nodup_append hnodup hother List.mem_cons_self
  rw [List.takeWhile_append_of_pos hne, List.takeWhile_cons_of_neg (by simp), List.append_nil]

/-- **No sign stands in one that is looked for after it.** -/
theorem not_infix_of_mem_takeWhile (h : relation' ∈ all.takeWhile (· != relation)) :
    ¬ relation'.sign <:+: relation.sign := by
  have hall : ∀ other ∈ all.takeWhile (· != relation), ¬ other.sign <:+: relation.sign := by
    cases relation <;> decide
  exact hall _ h

end Comparison

/-! ## 2. What a condition writes -/

namespace Condition

/-- `Writes t c`: the text `t` is the condition `c`. -/
inductive Writes : Text → Condition → Prop
  | comparison {t a b : Text} {relation : Comparison}
      (hfirst : ∀ other ∈ Comparison.all.takeWhile (· != relation), ¬ other.sign <:+: t)
      (hsplit : a ++ relation.sign ++ b = t)
      (hleast : ∀ a' b', a' ++ relation.sign ++ b' = t → a.length ≤ a'.length) :
    Writes t (.comparison relation (Text.trim a) (Text.trim b))
  | bare {t : Text} (h : ∀ relation : Comparison, ¬ relation.sign <:+: t) : Writes t (.bare t)

variable {t : Text} {c : Condition} {relation : Comparison}

theorem compared?_eq_none_iff : compared? t relation = none ↔ ¬ relation.sign <:+: t := by
  rw [compared?, Option.map_eq_none_iff, Text.breakOn?_eq_none_iff relation.sign_ne_nil]

/-- **A text is read as what it writes.** -/
theorem read_eq_iff : read t = c ↔ Writes t c := by
  constructor
  · rintro rfl
    unfold read
    cases hfound : Comparison.all.findSome? (compared? t) with
    | none =>
      refine .bare fun relation => compared?_eq_none_iff.mp ?_
      exact List.findSome?_eq_none_iff.mp hfound relation relation.mem_all
    | some c =>
      obtain ⟨earlier, relation, later, hall, hcompared, hearlier⟩ :=
        List.findSome?_eq_some_iff.mp hfound
      obtain ⟨⟨a, b⟩, hbreak, rfl⟩ := Option.map_eq_some_iff.mp hcompared
      obtain ⟨hsplit, hleast⟩ := (Text.breakOn?_eq_some_iff relation.sign_ne_nil).mp hbreak
      refine .comparison (fun other hother => ?_) hsplit hleast
      rw [Comparison.takeWhile_eq hall] at hother
      exact compared?_eq_none_iff.mp (hearlier other hother)
  · intro h
    cases h with
    | @comparison a b relation hfirst hsplit hleast =>
      obtain ⟨later, hall⟩ := relation.exists_all_eq
      have hbreak := (Text.breakOn?_eq_some_iff relation.sign_ne_nil).mpr ⟨hsplit, hleast⟩
      have hcompared : compared? t relation =
          some (.comparison relation (Text.trim a) (Text.trim b)) := by
        rw [compared?, hbreak]
        rfl
      have hfound := List.findSome?_eq_some_iff.mpr ⟨_, relation, later, hall, hcompared,
        fun other hother => compared?_eq_none_iff.mpr (hfirst other hother)⟩
      rw [read, hfound]
      rfl
    | bare hnone =>
      have hfound : Comparison.all.findSome? (compared? t) = none :=
        List.findSome?_eq_none_iff.mpr fun relation _ =>
          compared?_eq_none_iff.mpr (hnone relation)
      rw [read, hfound]
      rfl

end Condition

/-! ## 3. Operands without signs -/

/-- No character of a sign occurs in the text. -/
def Text.SignFree (t : Text) : Prop := ∀ c ∈ t, c ∉ Comparison.signChars

instance (t : Text) : Decidable t.SignFree :=
  List.decidableBAll (· ∉ Comparison.signChars) t

namespace Condition

variable {l r : Text} {relation : Comparison}

theorem filter_sign (relation : Comparison) :
    relation.sign.filter (· ∈ Comparison.signChars) = relation.sign :=
  List.filter_eq_self.mpr fun c hc => by simpa using relation.mem_signChars c hc

/-- Between such operands, the sign is all that is left when other characters are taken out. -/
theorem filter_signed (hl : l.SignFree) (hr : r.SignFree) (relation : Comparison) :
    (l ++ relation.sign ++ r).filter (· ∈ Comparison.signChars) = relation.sign := by
  have hnone : ∀ {t : Text}, t.SignFree → t.filter (· ∈ Comparison.signChars) = [] := fun ht =>
    List.filter_eq_nil_iff.mpr fun c hc => by simpa using ht c hc
  rw [List.filter_append, List.filter_append, hnone hl, hnone hr, filter_sign, List.nil_append,
    List.append_nil]

/-- **Each sign is recognised between operands without signs.** -/
theorem read_signed (hl : l.SignFree) (hr : r.SignFree) (relation : Comparison) :
    read (l ++ relation.sign ++ r) = .comparison relation (Text.trim l) (Text.trim r) := by
  refine read_eq_iff.mpr (.comparison (fun other hother hinfix => ?_) rfl ?_)
  · have hsigns := hinfix.filter (· ∈ Comparison.signChars)
    rw [filter_sign, filter_signed hl hr] at hsigns
    exact Comparison.not_infix_of_mem_takeWhile hother hsigns
  · obtain ⟨c, mark, hsign⟩ := List.exists_cons_of_ne_nil relation.sign_ne_nil
    have hc : c ∉ l := fun hmem => hl c hmem (relation.mem_signChars c (by simp [hsign]))
    have hbreak := @Text.breakOn?_of_not_mem l c mark hc r
    rw [← hsign] at hbreak
    exact ((Text.breakOn?_eq_some_iff relation.sign_ne_nil).mp hbreak).2

end Condition

end Stencil
