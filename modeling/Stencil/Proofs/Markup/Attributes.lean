/-
# Reading printed tags

A start tag is printed as a name, the directives and the attributes, each attribute with a blank
before it and its value, if it has one, in quotes.  This module reads such a text back.

`Written` is an attribute in this form, and it is well written (`Written.Fine`) if its name is of
the usual characters and its value does not hold the quote that it stands in.  Well-written
attributes are read as what they were (`attributes_flatMap`), and the search for the end of the tag
passes them (`passes_flatMap`).

Directives are kept decoded, so they are printed encoded and decoded again (`Text.decode_quoted`).
-/
import Stencil.Proofs.Markup.Cuts
import Stencil.Proofs.Text.References

namespace Stencil

/-! ## 1. Attributes as they are written -/

namespace Tag

/-- The characters of element names: letters, digits and four marks. -/
def isNameChar (c : Char) : Bool := c.isAlphanum || ['.', '_', ':', '-'].contains c

/-- The characters of attribute names: those of element names and `@`. -/
def isAttributeChar (c : Char) : Bool := isNameChar c || c == '@'

theorem isAttributeChar_of_isNameChar {c : Char} (h : isNameChar c = true) :
    isAttributeChar c = true := by
  rw [isAttributeChar, h, Bool.true_or]

/-- A usual character is none of those that mean something in a tag. -/
theorem ne_of_isAttributeChar {c d : Char} (h : isAttributeChar c = true)
    (hd : isAttributeChar d = false) : c ≠ d := by
  rintro rfl
  exact absurd (h.symm.trans hd) nofun

theorem continuesName_of_isAttributeChar {c : Char} (h : isAttributeChar c = true) :
    continuesName c = true := by
  have hne : ∀ d, isAttributeChar d = false → (c == d) = false := fun d hd =>
    beq_false_of_ne (ne_of_isAttributeChar h hd)
  simp [continuesName, Text.isTagBlank, bne, hne '=' (by decide), hne ' ' (by decide),
    hne '\t' (by decide), hne '\n' (by decide), hne '\r' (by decide)]

end Tag

/-- An attribute as it is written: with a value in quotes, or with a name alone. -/
inductive Written where
  | bare (name : Text)
  | valued (name : Text) (quote : Char) (value : Text)

namespace Written

def text : Written → Text
  | bare name => ' ' :: name
  | valued name quote value => ' ' :: name ++ '=' :: quote :: value ++ [quote]

/-- What is written. -/
def meaning : Written → Attribute
  | bare name => ⟨name, []⟩
  | valued name _ value => ⟨name, value⟩

/-- The name is not empty and has none but the usual characters. -/
def FineName (name : Text) : Prop := name ≠ [] ∧ ∀ c ∈ name, Tag.isAttributeChar c = true

theorem FineName.continues {name : Text} (h : FineName name) : ∃ first more,
    name = first :: more ∧ Tag.continuesName first = true ∧
      ∀ c ∈ more, Tag.continuesName c = true := by
  obtain ⟨first, more, rfl⟩ := List.exists_cons_of_ne_nil h.1
  obtain ⟨hfirst, hmore⟩ := List.forall_mem_cons.mp h.2
  exact ⟨first, more, rfl, Tag.continuesName_of_isAttributeChar hfirst,
    fun c hc => Tag.continuesName_of_isAttributeChar (hmore c hc)⟩

/-- The attribute is written so that it can be read. -/
def Fine : Written → Prop
  | bare name => FineName name
  | valued name quote value => FineName name ∧ (quote = '"' ∨ quote = '\'') ∧ quote ∉ value

end Written

theorem Text.isTagBlank_of_isAlpha {c : Char} (h : c.isAlpha = true) : isTagBlank c = false := by
  rw [← Bool.not_eq_true]
  intro hblank
  simp only [isTagBlank, Bool.or_eq_true, beq_iff_eq] at hblank
  rcases hblank with ((rfl | rfl) | rfl) | rfl <;> exact absurd h (by decide)

/-- Taking characters stops where the next one is of another kind. -/
theorem Text.takeWhile_append_eq {p : Char → Bool} {s : Text} (hs : ∀ c ∈ s, p c = true)
    {rest : Text} (hrest : rest.head?.all fun c => !p c) :
    (s ++ rest).takeWhile p = s ∧ (s ++ rest).dropWhile p = rest := by
  rw [List.takeWhile_append_of_pos hs, List.dropWhile_append_of_pos hs]
  cases rest with
  | nil => simp
  | cons c rest =>
    have hc : p c = false := by simpa using hrest
    simp [hc]

namespace Tag

open Text (isTagBlank)

variable {n : Nat} {t : Text}

theorem attributes_of_nil (h : t.dropWhile isTagBlank = []) : attributes n t = ([], none) := by
  rw [attributes]
  split
  · rfl
  · next heq => cases h.symm.trans heq

/-- The first attribute of a tag, and what the others are read from. -/
theorem attributes_of_cons {first : Char} {more : Text}
    (h : t.dropWhile isTagBlank = first :: more) :
    attributes n t =
      match readAttribute n first more with
      | .error fault => ([], some fault)
      | .ok (a, rest) => (a :: (attributes n rest).1, (attributes n rest).2) := by
  rw [attributes]
  split
  · next heq => cases h.symm.trans heq
  · next heq =>
    rw [h] at heq
    obtain ⟨rfl, rfl⟩ := List.cons.inj heq
    split
    · next heq' => rw [heq']
    · next heq' => rw [heq']

/-- Blanks in front of attributes do not matter. -/
theorem attributes_dropWhile (n : Nat) (t : Text) :
    attributes n (t.dropWhile isTagBlank) = attributes n t := by
  have htwice : (t.dropWhile isTagBlank).dropWhile isTagBlank = t.dropWhile isTagBlank := by
    induction t with
    | nil => rfl
    | cons c t ih =>
      cases hc : isTagBlank c with
      | true => rw [List.dropWhile_cons_of_pos hc, ih]
      | false =>
        rw [List.dropWhile_cons_of_neg (by simp [hc]), List.dropWhile_cons_of_neg (by simp [hc])]
  cases h : t.dropWhile isTagBlank with
  | nil => rw [attributes_of_nil h, attributes_of_nil rfl]
  | cons first more =>
    rw [h] at htwice
    rw [attributes_of_cons h, attributes_of_cons htwice]

/-- What may follow a name: nothing, or a blank that does not lead to a `=`. -/
def EndsName (t : Text) : Prop :=
  (t = [] ∨ t.head? = some ' ') ∧ (t.dropWhile isTagBlank).head? ≠ some '='

theorem not_blank_of_continuesName {c : Char} (h : continuesName c = true) :
    isTagBlank c = false ∧ c ≠ '=' := by
  simpa [continuesName, and_comm] using h

/-- A name that is written alone is read as an attribute without a value. -/
theorem readAttribute_bare {first : Char} {name rest : Text}
    (hname : ∀ c ∈ name, continuesName c = true) (hrest : EndsName rest) :
    readAttribute n first (name ++ rest) =
      .ok (⟨first :: name, []⟩, rest.dropWhile isTagBlank) := by
  obtain ⟨hhead, hequals⟩ := hrest
  have hstop : rest.head?.all fun c => !continuesName c := by
    rcases hhead with rfl | hhead
    · rfl
    · rw [hhead]
      rfl
  obtain ⟨htake, hdrop⟩ := Text.takeWhile_append_eq hname hstop
  simp only [readAttribute, htake, hdrop]
  split
  · next heq =>
    rw [heq] at hequals
    exact absurd rfl hequals
  · rfl

/-- A value in quotes is read up to its closing quote. -/
theorem readValue_quoted {quote : Char} {value rest : Text} (hquote : quote = '"' ∨ quote = '\'')
    (hvalue : quote ∉ value) :
    readValue n (quote :: value ++ quote :: rest) = .ok (value, rest) := by
  have hne : ∀ c ∈ value, (c != quote) = true := fun c hc =>
    bne_iff_ne.mpr fun heq => hvalue (heq ▸ hc)
  have hblank : isTagBlank quote = false := by
    rcases hquote with rfl | rfl <;> decide
  rw [readValue, List.cons_append, List.dropWhile_cons_of_neg (by simp [hblank])]
  dsimp only
  rw [if_pos hquote, List.takeWhile_append_of_pos hne, List.dropWhile_append_of_pos hne,
    List.dropWhile_cons_of_neg (by simp), List.takeWhile_cons_of_neg (by simp)]
  simp

theorem readAttribute_valued {first quote : Char} {name value rest : Text}
    (hname : ∀ c ∈ name, continuesName c = true) (hquote : quote = '"' ∨ quote = '\'')
    (hvalue : quote ∉ value) :
    readAttribute n first (name ++ '=' :: (quote :: value ++ quote :: rest)) =
      .ok (⟨first :: name, value⟩, rest) := by
  have hstop : ('=' :: (quote :: value ++ quote :: rest)).head?.all fun c => !continuesName c := rfl
  obtain ⟨htake, hdrop⟩ := Text.takeWhile_append_eq hname hstop
  simp only [readAttribute, htake, hdrop]
  rw [List.dropWhile_cons_of_neg (by decide)]
  change (readValue n (quote :: value ++ quote :: rest)).map _ = _
  rw [readValue_quoted hquote hvalue]
  rfl

/-- The blank in front of a name is skipped. -/
theorem dropWhile_blank_name {first : Char} (hfirst : continuesName first = true) (u : Text) :
    (' ' :: first :: u).dropWhile isTagBlank = first :: u := by
  rw [List.dropWhile_cons_of_pos (by decide),
    List.dropWhile_cons_of_neg (by simp [(not_blank_of_continuesName hfirst).1])]

/-- A well-written attribute with a value is read as what is written, whatever follows it. -/
theorem attributes_valued {name value : Text} {quote : Char}
    (hw : (Written.valued name quote value).Fine) (rest : Text) :
    attributes n ((Written.valued name quote value).text ++ rest) =
      (⟨name, value⟩ :: (attributes n rest).1, (attributes n rest).2) := by
  obtain ⟨hfine, hquote, hvalue⟩ := hw
  obtain ⟨first, name, rfl, hfirst, hname⟩ := hfine.continues
  have htext : (Written.valued (first :: name) quote value).text ++ rest =
      ' ' :: first :: (name ++ '=' :: (quote :: value ++ quote :: rest)) := by
    simp [Written.text]
  rw [htext, attributes_of_cons (dropWhile_blank_name hfirst _),
    readAttribute_valued hname hquote hvalue]

/-- **A well-written attribute is read as what is written.** -/
theorem attributes_written {w : Written} (hw : w.Fine) {rest : Text} (hrest : EndsName rest) :
    attributes n (w.text ++ rest) =
      (w.meaning :: (attributes n rest).1, (attributes n rest).2) := by
  cases w with
  | bare name =>
    obtain ⟨first, name, rfl, hfirst, hname⟩ := Written.FineName.continues hw
    rw [Written.text, List.cons_append, List.cons_append,
      attributes_of_cons (dropWhile_blank_name hfirst _), readAttribute_bare hname hrest]
    dsimp only
    rw [attributes_dropWhile]
    rfl
  | valued name quote value => exact attributes_valued hw rest

/-- The beginning of a well-written attribute ends the name before it. -/
theorem endsName_written {w : Written} (hw : w.Fine) (rest : Text) :
    EndsName (w.text ++ rest) := by
  have hends : ∀ {name : Text} (u : Text), Written.FineName name → EndsName (' ' :: name ++ u) := by
    intro name u hname
    obtain ⟨first, name, rfl, hfirst, -⟩ := hname.continues
    obtain ⟨hblank, hequals⟩ := not_blank_of_continuesName hfirst
    refine ⟨Or.inr rfl, ?_⟩
    rw [List.cons_append, List.cons_append, List.dropWhile_cons_of_pos (by decide),
      List.dropWhile_cons_of_neg (by simp [hblank])]
    exact fun heq => hequals (Option.some.inj heq)
  cases w with
  | bare name => exact hends rest hw
  | valued name quote value =>
    rw [Written.text, List.append_assoc, List.append_assoc]
    exact hends _ hw.1

/-- **Well-written attributes are read as what is written.** -/
theorem attributes_flatMap {ws : List Written} (hws : ∀ w ∈ ws, w.Fine) :
    attributes n (ws.flatMap Written.text) = (ws.map Written.meaning, none) := by
  have hends : ∀ ws : List Written, (∀ w ∈ ws, w.Fine) → EndsName (ws.flatMap Written.text) := by
    intro ws hws
    cases ws with
    | nil => exact ⟨Or.inl rfl, nofun⟩
    | cons w ws =>
      rw [List.flatMap_cons]
      exact endsName_written (hws w List.mem_cons_self) _
  induction ws with
  | nil => exact attributes_of_nil rfl
  | cons w ws ih =>
    obtain ⟨hw, hws⟩ := List.forall_mem_cons.mp hws
    rw [List.flatMap_cons, attributes_written hw (hends ws hws), ih hws]
    rfl

end Tag

/-! ## 2. The end of a tag -/

namespace Lexeme

/-- The search for the end of a tag passes the text, and no quote is open behind it. -/
def Passes (s : Text) : Prop :=
  ∀ t, breakTag none (s ++ t) = (breakTag none t).map fun (a, b) => (s ++ a, b)

variable {s t : Text}

theorem passes_nil : Passes [] := fun t => by simp

theorem Passes.append (hs : Passes s) (ht : Passes t) : Passes (s ++ t) := by
  intro u
  rw [List.append_assoc, hs, ht, Option.map_map]
  simp [Function.comp_def]

theorem passes_char {c : Char} (hend : c ≠ '>') (hquotes : ¬ (c = '"' ∨ c = '\'')) :
    Passes [c] := by
  intro t
  rw [List.singleton_append, breakTag, if_neg hend, if_neg hquotes]
  rfl

theorem passes_slash : Passes ['/'] := passes_char (by decide) (by decide)

/-- Usual characters neither end a tag nor open a quote. -/
theorem passes_name (h : ∀ c ∈ s, Tag.isAttributeChar c = true) : Passes s := by
  induction s with
  | nil => exact passes_nil
  | cons c s ih =>
    obtain ⟨hc, hs⟩ := List.forall_mem_cons.mp h
    have hne : ∀ d, Tag.isAttributeChar d = false → c ≠ d :=
      fun d => Tag.ne_of_isAttributeChar hc
    refine (passes_char (hne '>' (by decide)) ?_).append (ih hs)
    exact not_or.mpr ⟨hne '"' (by decide), hne '\'' (by decide)⟩

/-- An open quote is passed up to its end. -/
theorem breakTag_quoted {quote : Char} {value : Text} (h : quote ∉ value) (t : Text) :
    breakTag (some quote) (value ++ quote :: t) =
      (breakTag none t).map fun (a, b) => (value ++ quote :: a, b) := by
  induction value with
  | nil =>
    rw [List.nil_append, breakTag, if_pos rfl]
    rfl
  | cons c value ih =>
    obtain ⟨hc, hvalue⟩ := not_or.mp (mt List.mem_cons.mpr h)
    rw [List.cons_append, breakTag, if_neg (Ne.symm hc), ih hvalue, Option.map_map]
    rfl

theorem passes_quoted {quote : Char} {value : Text} (hquote : quote = '"' ∨ quote = '\'')
    (hvalue : quote ∉ value) : Passes (quote :: value ++ [quote]) := by
  intro t
  have hend : quote ≠ '>' := by
    rcases hquote with rfl | rfl <;> decide
  rw [List.append_assoc, List.cons_append, breakTag, if_neg hend, if_pos hquote,
    List.singleton_append, breakTag_quoted hvalue, Option.map_map]
  simp [Function.comp_def]

theorem passes_written {w : Written} (hw : w.Fine) : Passes w.text := by
  have hblank : Passes [' '] := passes_char (by decide) (by decide)
  have hequals : Passes ['='] := passes_char (by decide) (by decide)
  cases w with
  | bare name => exact hblank.append (passes_name hw.2)
  | valued name quote value =>
    obtain ⟨hname, hquote, hvalue⟩ := hw
    have hall := (hblank.append (passes_name hname.2)).append
      (hequals.append (passes_quoted hquote hvalue))
    simpa [Written.text] using hall

theorem passes_flatMap {ws : List Written} (hws : ∀ w ∈ ws, w.Fine) :
    Passes (ws.flatMap Written.text) := by
  induction ws with
  | nil => exact passes_nil
  | cons w ws ih =>
    obtain ⟨hw, hws⟩ := List.forall_mem_cons.mp hws
    rw [List.flatMap_cons]
    exact (passes_written hw).append (ih hws)

/-- A tag whose content is passed is cut off whole. -/
theorem cut_written_tag {content : Text}
    (hbegins : beginsMarkup (tag content).written = true) (hname : content.head? ≠ some '!')
    (hinstr : content.head? ≠ some '?') (hpasses : Passes content) :
    cut (tag content).written = .ok (tag content, []) := by
  have hwritten : (tag content).written = '<' :: (content ++ ['>']) := rfl
  have hcontent : breakTag none (content ++ ['>']) = some (content, []) := by
    rw [hpasses]
    simp [breakTag]
  rw [hwritten] at hbegins ⊢
  cases content with
  | nil => exact absurd hbegins (by decide)
  | cons c content =>
    rw [List.cons_append] at hbegins hcontent ⊢
    rw [cut_tag hbegins (fun hc => hname (congrArg some hc)) (fun hc => hinstr (congrArg some hc)),
      cutTag, hcontent]

end Lexeme

theorem Text.dropEndWhile_eq_self {p : Char → Bool} {t : Text} (h : ∀ c ∈ t, p c = false) :
    dropEndWhile p t = t := by
  have hreverse : t.reverse.dropWhile p = t.reverse := by
    cases heq : t.reverse with
    | nil => rfl
    | cons c more =>
      have hc : c ∈ t := List.mem_reverse.mp (heq ▸ List.mem_cons_self)
      rw [List.dropWhile_cons_of_neg (by simp [h c hc])]
  rw [dropEndWhile, hreverse, List.reverse_reverse]

theorem Text.dropEndWhile_append {p : Char → Bool} (s : Text) {t : Text} (hne : t ≠ [])
    (h : ∀ c ∈ t, p c = false) : dropEndWhile p (s ++ t) = s ++ t := by
  obtain ⟨init, c, rfl⟩ : ∃ init c, t = init ++ [c] :=
    ⟨t.dropLast, t.getLast hne, (List.dropLast_concat_getLast hne).symm⟩
  have hc : p c = false := h c (by simp)
  rw [← List.append_assoc, dropEndWhile, List.reverse_concat,
    List.dropWhile_cons_of_neg (by simp [hc]), List.reverse_cons, List.reverse_reverse]

/-- A usual character at the end is no `/`. -/
theorem Tag.getLast?_name {name : Text} (h : ∀ c ∈ name, isAttributeChar c = true) :
    name.getLast? ≠ some '/' := fun hlast =>
  ne_of_isAttributeChar (h _ (List.mem_of_getLast? hlast)) (by decide) rfl

theorem Text.getLast?_append_ne {s t : Text} {c : Char} (hs : s.getLast? ≠ some c)
    (ht : t.getLast? ≠ some c) : (s ++ t).getLast? ≠ some c := by
  rw [List.getLast?_append]
  cases hlast : t.getLast? with
  | none => exact hs
  | some d =>
    rw [hlast] at ht
    exact ht

/-- Well-written attributes do not end in a `/`, which would make their tag an empty one. -/
theorem Written.getLast?_flatMap {ws : List Written} (hws : ∀ w ∈ ws, w.Fine) :
    (ws.flatMap Written.text).getLast? ≠ some '/' := by
  induction ws with
  | nil => exact nofun
  | cons w ws ih =>
    obtain ⟨hw, hws⟩ := List.forall_mem_cons.mp hws
    rw [List.flatMap_cons]
    refine Text.getLast?_append_ne ?_ (ih hws)
    cases w with
    | bare name =>
      exact Text.getLast?_append_ne (s := [' ']) (by decide) (Tag.getLast?_name hw.2)
    | valued name quote value =>
      obtain ⟨-, hquote, -⟩ := hw
      rw [text, List.getLast?_concat]
      rcases hquote with rfl | rfl <;> decide

end Stencil
