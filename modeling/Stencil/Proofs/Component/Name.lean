/-
# What keys look like

The key of a component is the tag under which it is used.  It has letters and digits only, whatever
the name was (`isAlphanum_of_mem_key`), and it does not begin with a small letter
(`isLower_head?_key`), so that no key is the name of an element that is written in small letters.

This is all that a key promises.  It may begin with a digit, and it may be the name of a void or of
a raw element, in which the case of letters does not count: then a tag with this name is read as
something else than the tag of an element with content.  `Usable` says that it is none of these.
-/
import Mathlib
import Stencil.Component.Name
import Stencil.Markup.Element

namespace Stencil.ComponentName

variable {name : Text}

/-! ## 1. Words -/

theorem isAlphanum_of_mem_runs {run : Text} (h : run ∈ runs name) :
    ∀ c ∈ run, c.isAlphanum = true := by
  induction name generalizing run with
  | nil =>
    obtain rfl := List.mem_singleton.mp h
    exact fun c hc => absurd hc List.not_mem_nil
  | cons d name ih =>
    rw [runs] at h
    split at h
    · next hd =>
      cases hruns : runs name with
      | nil => simp [hruns] at h
      | cons first rest =>
        rw [hruns] at h ih
        rw [List.modifyHead_cons] at h
        rcases List.mem_cons.mp h with rfl | h
        · exact List.forall_mem_cons.mpr ⟨hd, ih List.mem_cons_self⟩
        · exact ih (List.mem_cons_of_mem first h)
    · rcases List.mem_cons.mp h with rfl | h
      · exact fun c hc => absurd hc List.not_mem_nil
      · exact ih h

/-- A word has letters and digits only, and it is not empty. -/
theorem of_mem_words {word : Text} (h : word ∈ words name) :
    word ≠ [] ∧ ∀ c ∈ word, c.isAlphanum = true := by
  obtain ⟨hrun, hne⟩ := List.mem_filter.mp h
  exact ⟨by simpa using hne, isAlphanum_of_mem_runs hrun⟩

/-! ## 2. Keys -/

theorem isAlphanum_toUpper {c : Char} (h : c.isAlphanum = true) : c.toUpper.isAlphanum = true := by
  by_cases hlower : c.isLower
  · rw [Char.isAlphanum, Char.isAlpha_toUpper_eq_isAlpha, Char.isAlpha, hlower]
    simp
  · rwa [Char.toUpper_eq_of_not_isLower hlower]

theorem isAlphanum_toLower {c : Char} (h : c.isAlphanum = true) : c.toLower.isAlphanum = true := by
  by_cases hupper : c.isUpper
  · rw [Char.isAlphanum, Char.isAlpha_toLower_eq_isAlpha, Char.isAlpha, hupper]
    simp
  · rwa [Char.toLower_eq_of_not_isUpper hupper]

/-- The key of a name is what its words are turned into, by one of the two ways to capitalise. -/
theorem exists_key_eq (name : Text) : ∃ capital ∈ [withCapital, capitalised],
    key name = (words name).flatMap capital := by
  unfold key
  split
  · next word hwords => exact ⟨withCapital, by simp, by rw [hwords]; simp⟩
  · exact ⟨capitalised, by simp, rfl⟩

/-- **A key has letters and digits only.** -/
theorem isAlphanum_of_mem_key {c : Char} (h : c ∈ key name) : c.isAlphanum = true := by
  have hcapital : ∀ capital ∈ [withCapital, capitalised], ∀ word : Text,
      (∀ c ∈ word, c.isAlphanum = true) → ∀ c ∈ capital word, c.isAlphanum = true := by
    intro capital hmem word hword
    cases word with
    | nil =>
      rcases List.mem_pair.mp hmem with rfl | rfl
      · exact nofun
      · exact nofun
    | cons d word =>
      obtain ⟨hd, hword⟩ := List.forall_mem_cons.mp hword
      rcases List.mem_pair.mp hmem with rfl | rfl
      · exact List.forall_mem_cons.mpr ⟨isAlphanum_toUpper hd, hword⟩
      · refine List.forall_mem_cons.mpr ⟨isAlphanum_toUpper hd, fun c hc => ?_⟩
        obtain ⟨c', hc', rfl⟩ := List.mem_map.mp hc
        exact isAlphanum_toLower (hword c' hc')
  obtain ⟨capital, hmem, hkey⟩ := exists_key_eq name
  rw [hkey] at h
  obtain ⟨word, hword, hc⟩ := List.mem_flatMap.mp h
  exact hcapital capital hmem word (of_mem_words hword).2 c hc

/-- **A key does not begin with a small letter.** -/
theorem isLower_head?_key {c : Char} (h : (key name).head? = some c) : c.isLower = false := by
  obtain ⟨capital, hmem, hkey⟩ := exists_key_eq name
  rw [hkey] at h
  cases hwords : words name with
  | nil =>
    rw [hwords] at h
    exact absurd h nofun
  | cons word rest =>
    have hword : word ∈ words name := by
      rw [hwords]
      exact List.mem_cons_self
    rw [hwords, List.flatMap_cons] at h
    cases word with
    | nil => exact absurd rfl (of_mem_words hword).1
    | cons d word =>
      rcases List.mem_pair.mp hmem with rfl | rfl
      · obtain rfl : d.toUpper = c := Option.some.inj h
        exact Char.isLower_toUpper_eq_false d
      · obtain rfl : d.toUpper = c := Option.some.inj h
        exact Char.isLower_toUpper_eq_false d

/-- A key is not a name in small letters. -/
theorem key_ne_of_isLower {x : Text} (hx : x ≠ []) (hlower : ∀ c ∈ x, c.isLower = true) :
    key name ≠ x := by
  rintro rfl
  cases hkey : key name with
  | nil => exact hx hkey
  | cons c rest =>
    have hc := isLower_head?_key (congrArg List.head? hkey)
    rw [hlower c (hkey ▸ List.mem_cons_self)] at hc
    exact absurd hc nofun

/-! ## 3. Usable keys -/

/-- A tag with this name begins an element that may hold any markup. -/
structure Usable (key : Text) : Prop where
  alpha : key.head?.any Char.isAlpha = true
  not_void : isVoidName key = false
  not_raw : isRawName key = false

theorem Usable.ne_nil {key : Text} (h : Usable key) : key ≠ [] := by
  rintro rfl
  exact absurd h.alpha nofun

end Stencil.ComponentName
