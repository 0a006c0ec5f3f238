/-
# Filling bodies

A body is filled piece by piece, so what a part of it is filled to does not depend on the other
parts, provided that no slot lies across the seam.  A slot is a `{`, a name, perhaps a `!`, and a
`}`; any other character ends what a part may have left open (`pieces_append`), and a text that ends
in one, or that has no `{`, is filled alone whatever follows it (`Closed`).

Quoting does not touch slots (`pieces_quoted`): none of their characters is quoted, and what a
character is quoted as does not begin with one of theirs.  And inert values can be read back, so
that the value of a directive, quoted and then filled with inert values, is read as the value filled
with what was given (`decode_fill_quoted`).
-/
import Stencil.Component.Slot
import Stencil.Proofs.Markup.Attributes

namespace Stencil

/-! ## 1. One slot -/

namespace Text

variable {p : Char → Bool} {u : Text}

/-- What follows a text does not matter to a search in it that it ends. -/
theorem takeWhile_append_of_head (hu : u.head?.all fun c => !p c) (t : Text) :
    (t ++ u).takeWhile p = t.takeWhile p ∧ (t ++ u).dropWhile p = t.dropWhile p ++ u := by
  induction t with
  | nil => exact takeWhile_append_eq (s := []) nofun hu
  | cons c t ih =>
    rw [List.cons_append]
    by_cases hc : p c = true
    · rw [List.takeWhile_cons_of_pos hc, List.takeWhile_cons_of_pos hc,
        List.dropWhile_cons_of_pos hc, List.dropWhile_cons_of_pos hc, ih.1]
      exact ⟨rfl, ih.2⟩
    · rw [List.takeWhile_cons_of_neg hc, List.takeWhile_cons_of_neg hc,
        List.dropWhile_cons_of_neg hc, List.dropWhile_cons_of_neg hc]
      exact ⟨rfl, rfl⟩

end Text

namespace Slot

/-- The character is none of those that a slot is made of behind its `{`. -/
def endsSlot (c : Char) : Bool := !isNameChar c && c != '!' && c != '}'

/-- What closes a slot behind its name: whether it stands for raw markup, and what follows it. -/
def close? : Text → Option (Bool × Text)
  | '!' :: '}' :: rest => some (true, rest)
  | '}' :: rest => some (false, rest)
  | _ => none

theorem read?_eq (t : Text) : read? t =
    if t.takeWhile isNameChar = [] then none
    else (close? (t.dropWhile isNameChar)).map fun (raw, rest) =>
      (ofName (t.takeWhile isNameChar) raw, rest) := by
  unfold read?
  dsimp only
  split
  · rfl
  · generalize t.dropWhile isNameChar = behind
    unfold close?
    split
    · rfl
    · rfl
    · split
      · simp_all
      · simp_all
      · rfl

theorem close?_of_ne {c : Char} (hbang : c ≠ '!') (hbrace : c ≠ '}') (t : Text) :
    close? (c :: t) = none := by
  unfold close?
  split
  · next heq => exact absurd (List.cons.inj heq).1 hbang
  · next heq => exact absurd (List.cons.inj heq).1 hbrace
  · rfl

theorem close?_bang_of_ne {c : Char} (hbrace : c ≠ '}') (t : Text) :
    close? ('!' :: c :: t) = none := by
  unfold close?
  split
  · next heq => exact absurd (List.cons.inj (List.cons.inj heq).2).1 hbrace
  · next heq => exact absurd (List.cons.inj heq).1 (by decide)
  · rfl

section Append

variable {u : Text} (hu : u.head?.all endsSlot)

include hu

theorem close?_append (t : Text) :
    close? (t ++ u) = (close? t).map fun (raw, rest) => (raw, rest ++ u) := by
  have hends : ∀ {d : Char} {more : Text}, u = d :: more → d ≠ '!' ∧ d ≠ '}' := by
    rintro d more rfl
    simp only [List.head?_cons, Option.all_some, endsSlot, Bool.and_eq_true, bne_iff_ne] at hu
    exact ⟨hu.1.2, hu.2⟩
  cases t with
  | nil =>
    cases u with
    | nil => rfl
    | cons d more => exact close?_of_ne (hends rfl).1 (hends rfl).2 more
  | cons c t =>
    by_cases hbrace : c = '}'
    · subst hbrace
      rfl
    · by_cases hbang : c = '!'
      · subst hbang
        cases t with
        | nil =>
          cases u with
          | nil => rfl
          | cons d more => exact close?_bang_of_ne (hends rfl).2 more
        | cons d t =>
          by_cases hd : d = '}'
          · subst hd
            rfl
          · rw [close?_bang_of_ne hd]
            exact close?_bang_of_ne hd _
      · rw [close?_of_ne hbang hbrace]
        exact close?_of_ne hbang hbrace _

/-- What ends slots may follow the text of a slot. -/
theorem read?_append (t : Text) :
    read? (t ++ u) = (read? t).map fun (s, rest) => (s, rest ++ u) := by
  have hname : u.head?.all fun c => !isNameChar c := by
    cases u with
    | nil => rfl
    | cons d more =>
      simp only [List.head?_cons, Option.all_some, endsSlot, Bool.and_eq_true] at hu ⊢
      exact hu.1.1
  obtain ⟨htake, hdrop⟩ := Text.takeWhile_append_of_head hname t
  rw [read?_eq, read?_eq, htake, hdrop, close?_append hu]
  split
  · rfl
  · rw [Option.map_map, Option.map_map]
    rfl

end Append

/-- What comes behind a slot is the end of what it was read from. -/
theorem suffix_of_read? {t rest : Text} {s : Slot} (h : read? t = some (s, rest)) :
    rest <:+ t := by
  rw [read?_eq] at h
  split at h
  · exact absurd h nofun
  · obtain ⟨⟨raw, rest'⟩, hclose, heq⟩ := Option.map_eq_some_iff.mp h
    obtain ⟨-, rfl⟩ := Prod.mk.inj heq
    refine List.IsSuffix.trans ?_ (List.dropWhile_suffix isNameChar)
    unfold close? at hclose
    split at hclose
    · next heq =>
      rw [heq, ← (Prod.mk.inj (Option.some.inj hclose)).2]
      exact ⟨['!', '}'], rfl⟩
    · next heq =>
      rw [heq, ← (Prod.mk.inj (Option.some.inj hclose)).2]
      exact ⟨['}'], rfl⟩
    · exact absurd hclose nofun

end Slot

/-! ## 2. The parts of a body -/

namespace Body

open Slot (endsSlot)

variable {c : Char} {t u rest : Text} {s : Slot}

@[simp] theorem pieces_nil : pieces [] = [] := by rw [pieces]

theorem pieces_cons_of_ne (hc : c ≠ '{') (t : Text) : pieces (c :: t) = .char c :: pieces t := by
  rw [pieces, if_neg hc]

theorem pieces_of_none (h : Slot.read? t = none) :
    pieces ('{' :: t) = .char '{' :: pieces t := by
  rw [pieces, if_pos rfl]
  split
  · next heq => cases h.symm.trans heq
  · rfl

theorem pieces_of_some (h : Slot.read? t = some (s, rest)) :
    pieces ('{' :: t) = .slot s :: pieces rest := by
  rw [pieces, if_pos rfl]
  split
  · next heq =>
    obtain ⟨rfl, rfl⟩ := Prod.mk.inj (Option.some.inj (h.symm.trans heq))
    rfl
  · next heq => cases h.symm.trans heq

/-- **A body is taken apart part by part**, where the second part ends slots. -/
theorem pieces_append (hu : u.head?.all endsSlot) (t : Text) :
    pieces (t ++ u) = pieces t ++ pieces u := by
  match t with
  | [] => rw [List.nil_append, pieces_nil, List.nil_append]
  | c :: t =>
    rw [List.cons_append]
    by_cases hc : c = '{'
    · subst hc
      have hread := Slot.read?_append hu t
      cases hslot : Slot.read? t with
      | none =>
        rw [hslot] at hread
        rw [pieces_of_none hread, pieces_of_none hslot, pieces_append hu t, List.cons_append]
      | some r =>
        obtain ⟨s, rest⟩ := r
        have hshorter := Slot.length_of_read? hslot
        rw [hslot] at hread
        rw [pieces_of_some hread, pieces_of_some hslot, pieces_append hu rest, List.cons_append]
    · rw [pieces_cons_of_ne hc, pieces_cons_of_ne hc, pieces_append hu t, List.cons_append]
termination_by t.length

/-- The text leaves no slot open, so it can be taken apart alone, whatever follows it. -/
def Closed (t : Text) : Prop := ∀ u, pieces (t ++ u) = pieces t ++ pieces u

/-- A text without braces is made of its characters. -/
theorem pieces_of_not_mem (h : '{' ∉ t) : pieces t = t.map .char := by
  induction t with
  | nil => exact pieces_nil
  | cons c t ih =>
    obtain ⟨hc, ht⟩ := not_or.mp (mt List.mem_cons.mpr h)
    rw [pieces_cons_of_ne (Ne.symm hc), ih ht, List.map_cons]

theorem closed_of_not_mem (h : '{' ∉ t) : Closed t := by
  intro u
  induction t with
  | nil => rw [List.nil_append, pieces_nil, List.nil_append]
  | cons c t ih =>
    obtain ⟨hc, ht⟩ := not_or.mp (mt List.mem_cons.mpr h)
    rw [List.cons_append, pieces_cons_of_ne (Ne.symm hc), pieces_cons_of_ne (Ne.symm hc), ih ht,
      List.cons_append]

/-- A text is closed by a character at its end that is in no slot. -/
theorem closed_concat (hends : endsSlot c = true) (hc : c ≠ '{') (t : Text) :
    Closed (t ++ [c]) := by
  have hall : ∀ u, pieces (t ++ c :: u) = pieces t ++ .char c :: pieces u := fun u => by
    rw [pieces_append (show (c :: u).head?.all endsSlot = true from hends), pieces_cons_of_ne hc]
  intro u
  rw [List.append_assoc, List.singleton_append, hall, hall, pieces_nil, List.append_assoc]
  rfl

/-- The characters of a body are those that stand in it. -/
theorem mem_of_char_mem_pieces {t : Text} (h : BodyPiece.char c ∈ pieces t) : c ∈ t := by
  match t with
  | [] => exact absurd (pieces_nil ▸ h) List.not_mem_nil
  | d :: t =>
    by_cases hd : d = '{'
    · subst hd
      cases hslot : Slot.read? t with
      | none =>
        rw [pieces_of_none hslot] at h
        rcases List.mem_cons.mp h with heq | h
        · exact BodyPiece.char.inj heq ▸ List.mem_cons_self
        · exact List.mem_cons_of_mem _ (mem_of_char_mem_pieces h)
      | some r =>
        obtain ⟨s, rest⟩ := r
        have hshorter := Slot.length_of_read? hslot
        rw [pieces_of_some hslot] at h
        rcases List.mem_cons.mp h with heq | h
        · exact absurd heq nofun
        · exact List.mem_cons_of_mem _
            ((Slot.suffix_of_read? hslot).subset (mem_of_char_mem_pieces h))
    · rw [pieces_cons_of_ne hd] at h
      rcases List.mem_cons.mp h with heq | h
      · exact BodyPiece.char.inj heq ▸ List.mem_cons_self
      · exact List.mem_cons_of_mem _ (mem_of_char_mem_pieces h)
termination_by t.length

theorem slot_mem_pieces : BodyPiece.slot s ∈ pieces t ↔ s ∈ slots t := by
  rw [slots, List.mem_filterMap]
  constructor
  · intro h
    exact ⟨_, h, rfl⟩
  · rintro ⟨piece, hpiece, heq⟩
    cases piece with
    | char c => exact absurd heq nofun
    | slot s' => exact Option.some.inj heq ▸ hpiece

/-! ## 3. Filling -/

section Fill

variable {resolve : Slot → Text}

/-- **A body is filled part by part**, where the second part ends slots. -/
theorem fill_append (hu : u.head?.all endsSlot) (t : Text) :
    fill resolve (t ++ u) = fill resolve t ++ fill resolve u := by
  rw [fill, pieces_append hu, List.flatMap_append, fill, fill]

theorem Closed.fill_append (ht : Closed t) (u : Text) :
    fill resolve (t ++ u) = fill resolve t ++ fill resolve u := by
  rw [fill, ht, List.flatMap_append, fill, fill]

theorem flatMap_fillPiece_char (t : Text) :
    (t.map BodyPiece.char).flatMap (fillPiece resolve) = t := by
  rw [List.flatMap_map]
  exact List.flatMap_singleton' t

/-- A text without braces has nothing to fill. -/
theorem fill_of_not_mem (h : '{' ∉ t) : fill resolve t = t := by
  rw [fill, pieces_of_not_mem h, flatMap_fillPiece_char]

/-- What is in a filled body was there before, or was put in. -/
theorem mem_fill (h : c ∈ fill resolve t) : c ∈ t ∨ ∃ s ∈ slots t, c ∈ resolve s := by
  obtain ⟨piece, hpiece, hc⟩ := List.mem_flatMap.mp h
  cases piece with
  | char d =>
    rw [fillPiece, List.mem_singleton] at hc
    exact Or.inl (mem_of_char_mem_pieces (hc ▸ hpiece))
  | slot s => exact Or.inr ⟨s, slot_mem_pieces.mp hpiece, hc⟩

end Fill

end Body

/-! ## 4. Quoted bodies -/

namespace Text

/-- A character that is quoted is none that a slot is made of. -/
theorem quotedChar_cases (c : Char) : quotedChar c = [c] ∨
    Slot.endsSlot c = true ∧ c ≠ '{' ∧ ∃ more, quotedChar c = '&' :: more ∧ '{' ∉ more := by
  by_cases hc : c ∈ ['<', '>', '&', '\'', '"']
  · have hends : ∀ c ∈ ['<', '>', '&', '\'', '"'], Slot.endsSlot c = true :=
      List.all_eq_true.mp rfl
    obtain ⟨body, hquoted, -, hbody⟩ := guards_quotedChar.referred c hc
    refine Or.inr ⟨hends c hc, ?_, body ++ [';'], hquoted, fun hmem => ?_⟩
    · rintro rfl
      exact absurd hc (by decide)
    · rcases List.mem_append.mp hmem with hmem | hmem
      · exact absurd (hbody _ hmem) (by decide)
      · exact absurd hmem (by decide)
  · exact Or.inl (guards_quotedChar.kept c hc)

theorem quoted_cons (c : Char) (t : Text) : quoted (c :: t) = quotedChar c ++ quoted t := rfl

/-- The first character of a quoted text is the first of the text, or an `&` for one that is no part
of a slot. -/
theorem exists_quoted_cons (c : Char) (t : Text) : ∃ d more, quoted (c :: t) = d :: more ∧
    (d = c ∨ d = '&' ∧ Slot.endsSlot c = true) := by
  rcases quotedChar_cases c with h | ⟨hends, -, more, h, -⟩
  · exact ⟨c, quoted t, by rw [quoted_cons, h]; rfl, Or.inl rfl⟩
  · exact ⟨'&', more ++ quoted t, by rw [quoted_cons, h]; rfl, Or.inr ⟨rfl, hends⟩⟩

end Text

namespace Slot

open Text (quoted quotedChar)

/-- The name of a slot is not touched by quoting. -/
theorem name_quoted (t : Text) :
    (quoted t).takeWhile isNameChar = t.takeWhile isNameChar ∧
      (quoted t).dropWhile isNameChar = quoted (t.dropWhile isNameChar) := by
  induction t with
  | nil => exact ⟨rfl, rfl⟩
  | cons c t ih =>
    by_cases hc : isNameChar c = true
    · have hquoted : quoted (c :: t) = c :: quoted t := by
        rcases Text.quotedChar_cases c with h | ⟨hends, -⟩
        · rw [Text.quoted_cons, h, List.singleton_append]
        · rw [endsSlot, hc] at hends
          exact absurd hends nofun
      rw [hquoted, List.takeWhile_cons_of_pos hc, List.dropWhile_cons_of_pos hc,
        List.takeWhile_cons_of_pos hc, List.dropWhile_cons_of_pos hc, ih.1]
      exact ⟨rfl, ih.2⟩
    · obtain ⟨d, more, hquoted, hd⟩ := Text.exists_quoted_cons c t
      have hd : ¬ isNameChar d = true := by
        rcases hd with rfl | ⟨rfl, -⟩
        · exact hc
        · decide
      rw [List.takeWhile_cons_of_neg hc, List.dropWhile_cons_of_neg hc, hquoted,
        List.takeWhile_cons_of_neg hd, List.dropWhile_cons_of_neg hd]
      exact ⟨rfl, rfl⟩

/-- The end of a slot is not touched by quoting. -/
theorem close?_quoted (t : Text) :
    close? (quoted t) = (close? t).map fun (raw, rest) => (raw, quoted rest) := by
  cases t with
  | nil => rfl
  | cons c t =>
    by_cases hbrace : c = '}'
    · subst hbrace
      rfl
    · by_cases hbang : c = '!'
      · subst hbang
        cases t with
        | nil => rfl
        | cons c t =>
          by_cases hc : c = '}'
          · subst hc
            rfl
          · obtain ⟨d, more, hquoted, hd⟩ := Text.exists_quoted_cons c t
            have hd : d ≠ '}' := by
              rcases hd with rfl | ⟨rfl, -⟩
              · exact hc
              · decide
            rw [close?_bang_of_ne hc, Text.quoted_cons, hquoted]
            exact close?_bang_of_ne hd more
      · obtain ⟨d, more, hquoted, hd⟩ := Text.exists_quoted_cons c t
        have hd : d ≠ '!' ∧ d ≠ '}' := by
          rcases hd with rfl | ⟨rfl, -⟩
          · exact ⟨hbang, hbrace⟩
          · decide
        rw [close?_of_ne hbang hbrace, hquoted, close?_of_ne hd.1 hd.2]
        rfl

theorem read?_quoted (t : Text) :
    read? (quoted t) = (read? t).map fun (s, rest) => (s, quoted rest) := by
  obtain ⟨htake, hdrop⟩ := name_quoted t
  rw [read?_eq, read?_eq, htake, hdrop, close?_quoted]
  split
  · rfl
  · rw [Option.map_map, Option.map_map]
    rfl

end Slot

namespace Body

open Text (quoted quotedChar)

/-- A part of a body as it stands in the quoted body. -/
def quotedPiece : BodyPiece → List BodyPiece
  | .char c => (quotedChar c).map .char
  | .slot s => [.slot s]

/-- **Quoting a body quotes its characters and keeps its slots.** -/
theorem pieces_quoted (t : Text) : pieces (quoted t) = (pieces t).flatMap quotedPiece := by
  match t with
  | [] => rw [quoted, List.flatMap_nil, pieces_nil, List.flatMap_nil]
  | c :: t =>
    by_cases hc : c = '{'
    · subst hc
      have hquoted : quoted ('{' :: t) = '{' :: quoted t := rfl
      have hread := Slot.read?_quoted t
      cases hslot : Slot.read? t with
      | none =>
        rw [hslot] at hread
        rw [hquoted, pieces_of_none hread, pieces_of_none hslot, pieces_quoted t,
          List.flatMap_cons]
        rfl
      | some r =>
        obtain ⟨s, rest⟩ := r
        have hshorter := Slot.length_of_read? hslot
        rw [hslot] at hread
        rw [hquoted, pieces_of_some hread, pieces_of_some hslot, pieces_quoted rest,
          List.flatMap_cons]
        rfl
    · have hfree : '{' ∉ quotedChar c := by
        rcases Text.quotedChar_cases c with h | ⟨-, -, more, h, hmore⟩
        · rw [h, List.mem_singleton]
          exact Ne.symm hc
        · rw [h, List.mem_cons]
          exact not_or.mpr ⟨by decide, hmore⟩
      rw [Text.quoted_cons, closed_of_not_mem hfree, pieces_of_not_mem hfree, pieces_cons_of_ne hc,
        pieces_quoted t, List.flatMap_cons, quotedPiece]
termination_by t.length

end Body

/-! ## 5. Inert values -/

/-- What is put into slots, by the values that are given to names. -/
def Slot.given (values : Text → Text) : Slot → Text
  | .children => []
  | .value name _ => values name

namespace Body

open Text (quoted)

/-- The body has slots for values only, and none of them stands for raw markup. -/
def Escaped (t : Text) : Prop := ∀ s ∈ slots t, ∃ name, s = .value name false

section Escaped

variable {t : Text} {resolve : Slot → Text} {values : Text → Text}

theorem Escaped.quoted (h : Escaped t) : Escaped (quoted t) := by
  intro s hs
  have hpiece := slot_mem_pieces.mpr hs
  rw [pieces_quoted] at hpiece
  obtain ⟨piece, hmem, hquoted⟩ := List.mem_flatMap.mp hpiece
  cases piece with
  | char c =>
    obtain ⟨d, -, heq⟩ := List.mem_map.mp hquoted
    exact absurd heq nofun
  | slot s' =>
    obtain rfl := BodyPiece.slot.inj (List.mem_singleton.mp hquoted)
    exact h s (slot_mem_pieces.mp hmem)

variable (hresolve : ∀ name, resolve (.value name false) = Text.inert (values name))

include hresolve

/-- **A body that is filled with inert values opens no tag and ends no quotes** that it did not
before. -/
theorem not_mem_fill {d : Char} (hd : d ∈ ['<', '>', '"', '\'']) (ht : d ∉ t) (h : Escaped t) :
    d ∉ fill resolve t := by
  intro hmem
  rcases mem_fill hmem with hmem | ⟨s, hs, hmem⟩
  · exact ht hmem
  · obtain ⟨name, rfl⟩ := h s hs
    rw [hresolve] at hmem
    exact Text.not_mem_inert hd _ hmem

/-- **The value of a directive is read as filled with the values themselves**, though it was quoted
and they were made inert. -/
theorem decode_fill_quoted (h : Escaped t) :
    Text.decode (fill resolve (quoted t)) = fill (Slot.given values) t := by
  have hresolved : ∀ ps : List BodyPiece, (∀ s, .slot s ∈ ps → ∃ name, s = .value name false) →
      Text.resolve? none ((ps.flatMap quotedPiece).flatMap (fillPiece resolve)) =
        some (ps.flatMap (fillPiece (Slot.given values))) := by
    intro ps hps
    induction ps with
    | nil => rfl
    | cons piece ps ih =>
      have htail := ih fun s hs => hps s (List.mem_cons_of_mem piece hs)
      rw [List.flatMap_cons, List.flatMap_append, List.flatMap_cons]
      cases piece with
      | char c =>
        rw [quotedPiece, flatMap_fillPiece_char,
          (Text.guards_quotedChar.spells_char c).resolve?_append, htail]
        rfl
      | slot s =>
        obtain ⟨name, rfl⟩ := hps s List.mem_cons_self
        rw [quotedPiece, List.flatMap_singleton, fillPiece, hresolve,
          (Text.spells_inert (values name)).resolve?_append, htail]
        rfl
  have hquoted := hresolved (pieces t) fun s hs => h s (slot_mem_pieces.mp hs)
  rw [← pieces_quoted] at hquoted
  rw [Text.decode, fill, hquoted, Option.getD_some, fill]

end Escaped

end Body

end Stencil
