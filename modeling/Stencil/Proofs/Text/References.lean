/-
# References and escapes

A raw text is a row of plain characters and of references, each of which stands for one character.
`Spells` says this without the automaton that reads it: a reference is whatever stands between an
`&` and the next `;`, and it must mean something.  What a raw text spells is its decoded value; a
raw text that spells nothing, because of a single `&` that begins no reference, is its own
(`decode_eq_iff`).

An escape writes some characters as references and keeps all others (`Guards`).  As `&` is among the
guarded characters, every `&` in an escaped text begins a reference that the escape has written, and
so the text is spelled by it whatever it looked like before (`Guards.spells`).  No other guarded
character is left, since references are made of letters, digits and `#` (`Guards.not_mem`).
-/
import Mathlib
import Stencil.Text.Reference

namespace Stencil.Text

/-! ## 1. What a raw text spells -/

/-- `Spells raw t`: every `&` in the raw text begins a reference, and `t` is the text with all of
them resolved. -/
inductive Spells : Text → Text → Prop
  | nil : Spells [] []
  | plain {c : Char} {raw t : Text} (hc : c ≠ '&') (h : Spells raw t) : Spells (c :: raw) (c :: t)
  | reference {body raw t : Text} {c : Char} (hbody : ∀ d ∈ body, d ≠ '&' ∧ d ≠ ';')
      (hmeans : referent? body = some c) (h : Spells raw t) :
    Spells ('&' :: (body ++ ';' :: raw)) (c :: t)

variable {raw t u body : Text} {c : Char}

/-- What is read behind an `&` is collected up to the next `;`. -/
theorem resolve?_open (hbody : ∀ d ∈ body, d ≠ '&' ∧ d ≠ ';') (seen raw : Text) :
    resolve? (some seen) (body ++ ';' :: raw) =
      (referent? (seen.reverse ++ body)).bind fun c => (resolve? none raw).map (c :: ·) := by
  induction body generalizing seen with
  | nil =>
    rw [List.nil_append, List.append_nil, resolve?, if_neg (by decide), if_pos rfl]
    cases referent? seen.reverse <;> rfl
  | cons d body ih =>
    obtain ⟨⟨hamp, hend⟩, hrest⟩ := List.forall_mem_cons.mp hbody
    rw [List.cons_append, resolve?, if_neg hamp, if_neg hend, ih hrest, List.reverse_cons,
      List.append_assoc, List.singleton_append]

/-- A reference is resolved, and nothing is if it means nothing. -/
theorem resolve?_reference (hbody : ∀ d ∈ body, d ≠ '&' ∧ d ≠ ';') (raw : Text) :
    resolve? none ('&' :: (body ++ ';' :: raw)) =
      (referent? body).bind fun c => (resolve? none raw).map (c :: ·) := by
  rw [resolve?, if_pos rfl, resolve?_open hbody]
  rfl

/-- An open reference that can be resolved ends in front of the next `&`. -/
theorem exists_of_resolve?_open {seen : Text} (h : resolve? (some seen) raw = some t) :
    ∃ body rest, raw = body ++ ';' :: rest ∧ ∀ d ∈ body, d ≠ '&' ∧ d ≠ ';' := by
  induction raw generalizing seen with
  | nil => cases h
  | cons d raw ih =>
    rw [resolve?] at h
    split at h
    · cases h
    · next hamp =>
      split at h
      · next hend => exact ⟨[], raw, hend ▸ rfl, by simp⟩
      · next hend =>
        obtain ⟨body, rest, rfl, hbody⟩ := ih h
        exact ⟨d :: body, rest, rfl, List.forall_mem_cons.mpr ⟨⟨hamp, hend⟩, hbody⟩⟩

/-- **A raw text that spells something is resolved to it**, whatever follows. -/
theorem Spells.resolve?_append (h : Spells raw t) (u : Text) :
    resolve? none (raw ++ u) = (resolve? none u).map (t ++ ·) := by
  induction h with
  | nil => exact Option.map_id'.symm
  | plain hc _ ih =>
    rw [List.cons_append, resolve?, if_neg hc, ih, Option.map_map]
    rfl
  | reference hbody hmeans _ ih =>
    rw [List.cons_append, List.append_assoc, List.cons_append, resolve?_reference hbody, hmeans, ih,
      Option.bind_some, Option.map_map]
    rfl

/-- **Resolving succeeds on the raw texts that spell something**, and on no others. -/
theorem resolve?_eq_some_iff : resolve? none raw = some t ↔ Spells raw t := by
  constructor
  · intro h
    induction hlength : raw.length using Nat.strong_induction_on generalizing raw t with
    | _ n ih =>
      cases raw with
      | nil =>
        obtain rfl := Option.some.inj h
        exact .nil
      | cons c raw =>
        by_cases hc : c = '&'
        · subst hc
          have hopen := h
          rw [resolve?, if_pos rfl] at hopen
          obtain ⟨body, rest, rfl, hbody⟩ := exists_of_resolve?_open hopen
          rw [resolve?_reference hbody] at h
          obtain ⟨d, hmeans, hrest⟩ := Option.bind_eq_some_iff.mp h
          obtain ⟨t', ht', rfl⟩ := Option.map_eq_some_iff.mp hrest
          have hshorter : rest.length < n := by
            simp only [List.length_cons, List.length_append] at hlength
            omega
          exact .reference hbody hmeans (ih _ hshorter ht' rfl)
        · rw [resolve?, if_neg hc] at h
          obtain ⟨t', ht', rfl⟩ := Option.map_eq_some_iff.mp h
          rw [List.length_cons] at hlength
          exact .plain hc (ih _ (by omega) ht' rfl)
  · intro h
    have hresolve := h.resolve?_append []
    rw [List.append_nil] at hresolve
    rw [hresolve]
    exact congrArg some (List.append_nil t)

/-- What a raw text spells is its value. -/
theorem Spells.decode_eq (h : Spells raw t) : decode raw = t := by
  rw [decode, resolve?_eq_some_iff.mpr h, Option.getD_some]

/-- **Decoding is all or nothing**: a raw text has the value that it spells, and if it spells none,
it is kept as it is. -/
theorem decode_eq_iff : decode raw = t ↔ Spells raw t ∨ t = raw ∧ ∀ u, ¬ Spells raw u := by
  cases hraw : resolve? none raw with
  | some v =>
    have hspells := resolve?_eq_some_iff.mp hraw
    rw [hspells.decode_eq]
    constructor
    · rintro rfl
      exact Or.inl hspells
    · rintro (h | ⟨-, hnone⟩)
      · rw [← hspells.decode_eq, h.decode_eq]
      · exact absurd hspells (hnone v)
  | none =>
    have hnone : ∀ u, ¬ Spells raw u := fun u hu => by
      cases hraw.symm.trans (resolve?_eq_some_iff.mpr hu)
    rw [decode, hraw, Option.getD_none]
    constructor
    · rintro rfl
      exact Or.inr ⟨rfl, hnone⟩
    · rintro (h | ⟨rfl, -⟩)
      · exact absurd h (hnone t)
      · rfl

theorem Spells.append {raw' t' : Text} (h : Spells raw t) (h' : Spells raw' t') :
    Spells (raw ++ raw') (t ++ t') := by
  rw [← resolve?_eq_some_iff, h.resolve?_append, resolve?_eq_some_iff.mpr h', Option.map_some]

/-! ## 2. Escapes -/

/-- The character may stand in a reference. -/
def isReferenceChar (c : Char) : Bool := c.isAlphanum || c == '#'

/-- The escape writes a reference for each guarded character, `&` among them, and keeps all other
characters. -/
structure Guards (escape : Char → Text) (guarded : List Char) : Prop where
  amp : '&' ∈ guarded
  kept : ∀ c, c ∉ guarded → escape c = [c]
  referred : ∀ c ∈ guarded, ∃ body, escape c = '&' :: (body ++ [';']) ∧ referent? body = some c ∧
    ∀ d ∈ body, isReferenceChar d = true

theorem guards_quotedChar : Guards quotedChar ['<', '>', '&', '\'', '"'] where
  amp := by decide
  kept c hc := by
    simp only [List.mem_cons, List.not_mem_nil, or_false, not_or] at hc
    obtain ⟨hlt, hgt, hamp, hsingle, hdouble⟩ := hc
    rw [quotedChar, if_neg hlt, if_neg hgt, if_neg hamp, if_neg hsingle, if_neg hdouble]
  referred c hc := by
    simp only [List.mem_cons, List.not_mem_nil, or_false] at hc
    rcases hc with rfl | rfl | rfl | rfl | rfl
    · exact ⟨['l', 't'], rfl, rfl, List.all_eq_true.mp rfl⟩
    · exact ⟨['g', 't'], rfl, rfl, List.all_eq_true.mp rfl⟩
    · exact ⟨['a', 'm', 'p'], rfl, rfl, List.all_eq_true.mp rfl⟩
    · exact ⟨['a', 'p', 'o', 's'], rfl, rfl, List.all_eq_true.mp rfl⟩
    · exact ⟨['q', 'u', 'o', 't'], rfl, rfl, List.all_eq_true.mp rfl⟩

theorem guards_inertChar : Guards inertChar ['&', '<', '>', '"', '\'', '/'] where
  amp := by decide
  kept c hc := by
    simp only [List.mem_cons, List.not_mem_nil, or_false, not_or] at hc
    obtain ⟨hamp, hlt, hgt, hdouble, hsingle, hslash⟩ := hc
    rw [inertChar, if_neg hamp, if_neg hlt, if_neg hgt, if_neg hdouble, if_neg hsingle,
      if_neg hslash]
  referred c hc := by
    simp only [List.mem_cons, List.not_mem_nil, or_false] at hc
    rcases hc with rfl | rfl | rfl | rfl | rfl | rfl
    · exact ⟨['a', 'm', 'p'], rfl, rfl, List.all_eq_true.mp rfl⟩
    · exact ⟨['l', 't'], rfl, rfl, List.all_eq_true.mp rfl⟩
    · exact ⟨['g', 't'], rfl, rfl, List.all_eq_true.mp rfl⟩
    · exact ⟨['q', 'u', 'o', 't'], rfl, rfl, List.all_eq_true.mp rfl⟩
    · exact ⟨['#', 'x', '2', '7'], rfl, rfl, List.all_eq_true.mp rfl⟩
    · exact ⟨['#', 'x', '2', 'F'], rfl, rfl, List.all_eq_true.mp rfl⟩

section Guards

variable {escape : Char → Text} {guarded : List Char} (h : Guards escape guarded)

include h

/-- What is written of a character spells it. -/
theorem Guards.spells_char (c : Char) : Spells (escape c) [c] := by
  by_cases hc : c ∈ guarded
  · obtain ⟨body, hescape, hmeans, hbody⟩ := h.referred c hc
    rw [hescape]
    refine .reference (fun d hd => ?_) hmeans .nil
    have hchar := hbody d hd
    constructor <;> rintro rfl <;> exact absurd hchar (by decide)
  · rw [h.kept c hc]
    exact .plain (fun hamp => hc (hamp ▸ h.amp)) .nil

/-- **An escaped text spells the text**, also one that looked escaped before. -/
theorem Guards.spells (t : Text) : Spells (t.flatMap escape) t := by
  induction t with
  | nil => exact .nil
  | cons c t ih =>
    rw [List.flatMap_cons, ← List.singleton_append]
    exact (h.spells_char c).append ih

/-- **No guarded character is left in an escaped text**, unless references are made of it. -/
theorem Guards.not_mem {d : Char} (hd : d ∈ guarded) (hamp : d ≠ '&') (hend : d ≠ ';')
    (hchar : isReferenceChar d = false) (t : Text) : d ∉ t.flatMap escape := by
  intro hmem
  obtain ⟨c, -, hc⟩ := List.mem_flatMap.mp hmem
  by_cases hguarded : c ∈ guarded
  · obtain ⟨body, hescape, -, hbody⟩ := h.referred c hguarded
    rw [hescape, List.mem_cons, List.mem_append, List.mem_singleton] at hc
    rcases hc with rfl | hc | rfl
    · exact hamp rfl
    · cases hchar.symm.trans (hbody d hc)
    · exact hend rfl
  · rw [h.kept c hguarded, List.mem_singleton] at hc
    exact hguarded (hc ▸ hd)

end Guards

/-! ## 3. Values of directives, and values that are inserted -/

theorem spells_quoted (t : Text) : Spells (quoted t) t := guards_quotedChar.spells t

theorem spells_inert (t : Text) : Spells (inert t) t := guards_inertChar.spells t

/-- **The value of a directive is read back as it was.** -/
theorem decode_quoted (t : Text) : decode (quoted t) = t := (spells_quoted t).decode_eq

/-- What is made inert is decoded to what it was. -/
theorem decode_inert (t : Text) : decode (inert t) = t := (spells_inert t).decode_eq

section Marks

variable {d : Char} (hd : d ∈ ['<', '>', '"', '\''])

include hd

/-- The value of a directive opens no tag and ends no quotes. -/
theorem not_mem_quoted (t : Text) : d ∉ quoted t := by
  simp only [List.mem_cons, List.not_mem_nil, or_false] at hd
  rcases hd with rfl | rfl | rfl | rfl <;>
    exact guards_quotedChar.not_mem (by decide) (by decide) (by decide) (by decide) t

/-- An inert value opens no tag and ends no quotes. -/
theorem not_mem_inert (t : Text) : d ∉ inert t := by
  simp only [List.mem_cons, List.not_mem_nil, or_false] at hd
  rcases hd with rfl | rfl | rfl | rfl <;>
    exact guards_inertChar.not_mem (by decide) (by decide) (by decide) (by decide) t

end Marks

/-- It does not end a tag as one that is start and end at once, either. -/
theorem slash_not_mem_inert (t : Text) : '/' ∉ inert t :=
  guards_inertChar.not_mem (by decide) (by decide) (by decide) (by decide) t

/-- **Both escapes are undone by decoding, and leave nothing that markup is made of.**  Every `&` in
an escaped text begins a reference, so that the text is spelled as a whole; there is no `<`, no `>`
and no quote in it, and in an inert value there is no `/`. -/
theorem escapes_exact (t : Text) :
    (Spells (inert t) t ∧ decode (inert t) = t) ∧ (Spells (quoted t) t ∧ decode (quoted t) = t) ∧
      (∀ d ∈ ['<', '>', '"', '\''], d ∉ inert t ∧ d ∉ quoted t) ∧ '/' ∉ inert t := by
  refine ⟨⟨spells_inert t, decode_inert t⟩, ⟨spells_quoted t, decode_quoted t⟩, fun d hd => ?_,
    slash_not_mem_inert t⟩
  exact ⟨not_mem_inert hd t, not_mem_quoted hd t⟩

end Stencil.Text
