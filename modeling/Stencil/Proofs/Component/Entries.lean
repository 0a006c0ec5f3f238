/-
# The entries of a library

A library keeps its components on a list, one for each key, in the order of the keys.  This module
says what adding components does to the list.

* A component that is added is found under its key, instead of one that was there before, and
  nothing else changes (`lookup_insertEntry`).  So of components that are added one after the other
  the last one with a key is found (`lookup_foldl_insert`).
* The keys stay in order (`pairwise_insertEntry`).  The order is that of the characters; for keys,
  which have letters and digits only, it is that of their bytes (`Text.bytes_lt_bytes`).
-/
import Stencil.Component.Library
import Stencil.Proofs.Component.Name

namespace Stencil

/-! ## 1. Bytes -/

namespace Text

/-- The bytes of a text in UTF-8. -/
def bytes (t : Text) : List UInt8 := t.flatMap String.utf8EncodeChar

/-- The code points of letters and digits are below 128. -/
theorem toNat_lt_of_isAlphanum {c : Char} (h : c.isAlphanum = true) : c.toNat < 128 := by
  simp only [Char.isAlphanum, Char.isAlpha, Char.isUpper, Char.isLower, Char.isDigit, ge_iff_le,
    Bool.or_eq_true, Bool.and_eq_true, decide_eq_true_eq, UInt32.le_iff_toNat_le] at h
  change c.val.toNat < 128
  rcases h with (⟨-, h⟩ | ⟨-, h⟩) | ⟨-, h⟩
  · exact Nat.lt_of_le_of_lt h (by decide)
  · exact Nat.lt_of_le_of_lt h (by decide)
  · exact Nat.lt_of_le_of_lt h (by decide)

/-- A letter or digit is one byte. -/
theorem utf8EncodeChar_of_isAlphanum {c : Char} (h : c.isAlphanum = true) :
    String.utf8EncodeChar c = [UInt8.ofNat c.toNat] :=
  if_pos (Nat.le_of_lt_succ (toNat_lt_of_isAlphanum h))

/-- **Letters and digits are ordered like their bytes.** -/
theorem bytes_lt_bytes {s t : Text} (hs : ∀ c ∈ s, c.isAlphanum = true)
    (ht : ∀ c ∈ t, c.isAlphanum = true) (h : s < t) : bytes s < bytes t := by
  induction s generalizing t with
  | nil =>
    cases t with
    | nil => exact absurd h (List.lt_irrefl [])
    | cons d t =>
      rw [bytes, bytes, List.flatMap_cons,
        utf8EncodeChar_of_isAlphanum (ht d List.mem_cons_self)]
      exact List.nil_lt_cons _ _
  | cons c s ih =>
    cases t with
    | nil => exact absurd h (List.not_lt_nil _)
    | cons d t =>
      obtain ⟨hc, hs⟩ := List.forall_mem_cons.mp hs
      obtain ⟨hd, ht⟩ := List.forall_mem_cons.mp ht
      rw [bytes, bytes, List.flatMap_cons, List.flatMap_cons, utf8EncodeChar_of_isAlphanum hc,
        utf8EncodeChar_of_isAlphanum hd, List.singleton_append, List.singleton_append,
        List.cons_lt_cons_iff]
      rcases List.cons_lt_cons_iff.mp h with hlt | ⟨heq, hlt⟩
      · refine Or.inl (UInt8.lt_iff_toNat_lt.mpr ?_)
        have hcd : c.toNat < d.toNat := hlt
        have hlt128 := toNat_lt_of_isAlphanum hd
        rw [UInt8.toNat_ofNat', UInt8.toNat_ofNat']
        omega
      · exact Or.inr ⟨by rw [heq], ih hs ht hlt⟩

end Text

/-! ## 2. One component -/

namespace Library

variable {key : Text} {c : Component} {entries : List (Text × Component)}

theorem lookup_cons (entry : Text × Component) (rest : List (Text × Component)) (k : Text) :
    (entry :: rest).lookup k = if k = entry.1 then some entry.2 else rest.lookup k := by
  obtain ⟨key, c⟩ := entry
  by_cases hk : k = key
  · rw [if_pos hk, hk, List.lookup_cons_self]
  · rw [if_neg hk, List.lookup_cons, beq_eq_false_iff_ne.mpr hk]

/-- **The component that is added is found under its key**, and every other key finds what it found
before. -/
theorem lookup_insertEntry (key k : Text) (c : Component) (entries : List (Text × Component)) :
    (insertEntry key c entries).lookup k = if k = key then some c else entries.lookup k := by
  induction entries with
  | nil => exact lookup_cons (key, c) [] k
  | cons entry rest ih =>
    rw [insertEntry]
    split
    · exact lookup_cons (key, c) (entry :: rest) k
    · split
      · next heq =>
        rw [lookup_cons, lookup_cons, ← heq]
        by_cases hk : k = key
        · rw [if_pos hk, if_pos hk]
        · rw [if_neg hk, if_neg hk, if_neg hk]
      · next hne =>
        rw [lookup_cons, lookup_cons, ih]
        by_cases hk : k = key
        · rw [if_neg (hk ▸ hne), if_pos hk, if_pos hk]
        · rw [if_neg hk, if_neg hk]

theorem lookup_insert (l : Library) (c : Component) (k : Text) :
    (l.insert c).lookup k = if k = c.key then some c else l.lookup k :=
  lookup_insertEntry c.key k c l.entries

theorem mem_insertEntry {entry : Text × Component} (h : entry ∈ insertEntry key c entries) :
    entry = (key, c) ∨ entry ∈ entries := by
  induction entries with
  | nil => exact Or.inl (List.mem_singleton.mp h)
  | cons first rest ih =>
    rw [insertEntry] at h
    split at h
    · exact List.mem_cons.mp h
    · split at h
      · exact (List.mem_cons.mp h).imp_right (List.mem_cons_of_mem first)
      · rcases List.mem_cons.mp h with rfl | h
        · exact Or.inr List.mem_cons_self
        · exact (ih h).imp_right (List.mem_cons_of_mem first)

/-- The keys of the entries are in strictly increasing order. -/
def Ordered (entries : List (Text × Component)) : Prop :=
  entries.Pairwise fun x y => x.1 < y.1

/-- **The keys stay in order.** -/
theorem ordered_insertEntry (h : Ordered entries) : Ordered (insertEntry key c entries) := by
  induction entries with
  | nil => exact List.pairwise_singleton _ _
  | cons first rest ih =>
    obtain ⟨hfirst, hrest⟩ := List.pairwise_cons.mp h
    rw [insertEntry]
    split
    · next hlt =>
      refine List.pairwise_cons.mpr ⟨fun y hy => ?_, h⟩
      rcases List.mem_cons.mp hy with rfl | hy
      · exact hlt
      · exact List.lt_trans hlt (hfirst y hy)
    · next hnot =>
      split
      · next heq => exact List.pairwise_cons.mpr ⟨fun y hy => heq ▸ hfirst y hy, hrest⟩
      · next hne =>
        have hgt : first.1 < key :=
          (List.le_iff_lt_or_eq.mp (List.not_lt.mp hnot)).resolve_right (Ne.symm hne)
        refine List.pairwise_cons.mpr ⟨fun y hy => ?_, ih hrest⟩
        rcases mem_insertEntry hy with rfl | hy
        · exact hgt
        · exact hfirst y hy

/-! ## 3. One component after the other -/

/-- **Of components that are added one after the other the last one with a key is found.** -/
theorem lookup_foldl_insert (cs : List Component) (l : Library) (k : Text) :
    (cs.foldl insert l).lookup k =
      ((cs.filter fun c => c.key == k).getLast?).or (l.lookup k) := by
  induction cs generalizing l with
  | nil => rfl
  | cons c cs ih =>
    rw [List.foldl_cons, ih, lookup_insert, List.filter_cons]
    by_cases hk : k = c.key
    · subst hk
      rw [if_pos rfl, if_pos (beq_self_eq_true _), List.getLast?_cons]
      cases (cs.filter fun c' => c'.key == c.key).getLast? <;> rfl
    · rw [if_neg hk, if_neg (by simpa using Ne.symm hk)]

theorem mem_foldl_insert {cs : List Component} {l : Library} {entry : Text × Component}
    (h : entry ∈ (cs.foldl insert l).entries) :
    (∃ c ∈ cs, entry = (c.key, c)) ∨ entry ∈ l.entries := by
  induction cs generalizing l with
  | nil => exact Or.inr h
  | cons c cs ih =>
    rcases ih h with ⟨c', hc', heq⟩ | h
    · exact Or.inl ⟨c', List.mem_cons_of_mem c hc', heq⟩
    · exact (mem_insertEntry h).imp_left fun heq => ⟨c, List.mem_cons_self, heq⟩

theorem ordered_foldl_insert {cs : List Component} {l : Library} (h : Ordered l.entries) :
    Ordered (cs.foldl insert l).entries := by
  induction cs generalizing l with
  | nil => exact h
  | cons c cs ih => exact ih (ordered_insertEntry h)

end Library

end Stencil
