/-
# Where faults are

A fault bears the place at which the source has it, and the places come from all over: from the scan
of lexemes, from the attributes of a tag, from the stack of the open elements, from the end tag that
does not fit.  What a fault says of its place is one thing all the same (`MarkupFault.Located`): it
is where markup begins that reading comes to, and the elements that the fault names are what is
there.  Only a doctype that names nothing is faulty at its end.

That every fault is where it says (`Document.located_of_parse`) is read off the reasons for which a
source is refused; what is still to be known is what can be wrong with a single piece
(`Lexeme.Faulty`).
-/
import Stencil.Proofs.Markup.Faults

namespace Stencil

/-! ## 1. Faults of one piece -/

/-- What can be wrong with a lexeme at `p` that could be cut off: the attributes of a tag, two
directives in it, or a doctype that is all blank behind its keyword. -/
inductive Lexeme.Faulty (p : Nat) : Lexeme → MarkupFault → Prop
  | malformed {content : Text} {cause : Malformation} (hcause : cause ≠ .doctypeNameless) :
    Faulty p (.tag content) (.malformed cause p)
  | conflicting {content name first second : Text} :
    Faulty p (.tag content) (.conflicting name first second p)
  | nameless {content : Text}
      (hblank : ∀ c ∈ content.drop doctypeKeyword.length, Text.isTagBlank c = true) :
    Faulty p (.doctype content) (.malformed .doctypeNameless (p + 2 + Text.byteLength content))

namespace Tag

variable {p n : Nat} {t : Text} {cause : Malformation} {found : MarkupFault}

theorem ne_of_readValue (h : readValue n t = .error cause) : cause ≠ .doctypeNameless := by
  unfold readValue at h
  split at h
  · obtain rfl := Except.error.inj h
    exact nofun
  · split at h
    · split at h
      · obtain rfl := Except.error.inj h
        exact nofun
      · cases h
    · cases h

theorem ne_of_readAttribute {first : Char} (h : readAttribute n first t = .error cause) :
    cause ≠ .doctypeNameless := by
  simp only [readAttribute] at h
  split at h
  · next value _ =>
    cases hvalue : readValue n value with
    | ok r =>
      rw [hvalue] at h
      cases h
    | error cause' =>
      rw [hvalue] at h
      obtain rfl := Except.error.inj h
      exact ne_of_readValue hvalue
  · cases h

/-- What is wrong with the attributes of a tag is wrong with a value. -/
theorem ne_of_attributes (h : (attributes n t).2 = some cause) : cause ≠ .doctypeNameless := by
  fun_induction attributes n t with
  | case1 => cases h
  | case2 _ _ _ _ _ hread =>
    obtain rfl := Option.some.inj h
    exact ne_of_readAttribute hread
  | case3 _ _ _ _ _ _ _ _ ih => exact ih h

theorem exists_conflict_of_attach {e : Element} {a : Attribute}
    (h : attach p e a = .error found) : ∃ name first second,
      found = .conflicting name first second p := by
  unfold attach at h
  split at h
  · cases h
  · split at h
    · cases h
    · cases h
    · exact ⟨_, _, _, (Except.error.inj h).symm⟩

theorem exists_conflict_of_foldlM {as : List Attribute} {e : Element}
    (h : as.foldlM (attach p) e = .error found) : ∃ name first second,
      found = .conflicting name first second p := by
  induction as generalizing e with
  | nil => cases h
  | cons a as ih =>
    rw [List.foldlM_cons] at h
    cases ha : attach p e a with
    | error found' =>
      rw [ha] at h
      obtain rfl := Except.error.inj h
      exact exists_conflict_of_attach ha
    | ok e' =>
      rw [ha] at h
      exact ih h

/-- A tag is faulty for two directives, or else for the value of an attribute. -/
theorem faulty_of_element {selfClosing : Bool} {content : Text}
    (h : element p selfClosing content = .error found) (content' : Text) :
    (Lexeme.tag content').Faulty p found := by
  unfold element at h
  generalize hall : attributes (Text.byteLength content)
    (content.dropWhile (!Text.isTagBlank ·)) = all at h
  obtain ⟨as, fault⟩ := all
  cases hfold : as.foldlM (attach p) { name := name content, selfClosing := selfClosing } with
  | error found' =>
    simp only [hfold] at h
    obtain rfl := Except.error.inj h
    obtain ⟨_, _, _, rfl⟩ := exists_conflict_of_foldlM hfold
    exact .conflicting
  | ok e =>
    simp only [hfold] at h
    cases fault with
    | none => cases h
    | some cause =>
      obtain rfl := Except.error.inj h
      exact .malformed (ne_of_attributes (congrArg Prod.snd hall))

end Tag

/-- **A lexeme without a meaning is faulty.** -/
theorem Lexeme.faulty_of_ofLexeme {p : Nat} {l : Lexeme} {found : MarkupFault}
    (h : Token.ofLexeme p l = .error found) : l.Faulty p found := by
  have hmapped : ∀ {e : Except MarkupFault Element} {f : Element → Token},
      e.map f = .error found → e = .error found := by
    intro e f he
    cases e with
    | error found' => exact congrArg _ (Except.error.inj he)
    | ok e => cases he
  cases l with
  | tag content =>
    change Token.ofTag p content = .error found at h
    unfold Token.ofTag at h
    split at h
    · cases h
    · split at h
      · exact Tag.faulty_of_element (hmapped h) content
      · exact Tag.faulty_of_element (hmapped h) content
  | doctype content =>
    change Token.ofDoctype p content = .error found at h
    unfold Token.ofDoctype at h
    dsimp only at h
    split at h
    · next hblank =>
      obtain rfl := Except.error.inj h
      exact .nameless (List.dropWhile_eq_nil_iff.mp hblank)
    · cases h
  | _ => cases h

/-- Where no lexeme can be cut off, one begins. -/
theorem Lexeme.cut_eq_error {t : Text} {cause : Malformation} (h : cut t = .error cause) :
    beginsMarkup t = true ∧ cause ≠ .doctypeNameless := by
  have hbegins : beginsMarkup t = true := by
    by_contra hnot
    rw [cut_text (Bool.eq_false_iff.mpr hnot)] at h
    cases h
  refine ⟨hbegins, ?_⟩
  rintro rfl
  unfold cut at h
  rw [if_pos hbegins] at h
  unfold cutDeclaration cutInstruction cutTag at h
  repeat' split at h
  all_goals cases h

/-! ## 2. What a fault says of its place -/

/-- What a fault that a source is refused for says of its place. -/
structure MarkupFault.Located (source : Text) (fault : MarkupFault) : Prop where
  /-- The place is between two characters, or in front of the first. -/
  boundary : ∃ before rest, source = before ++ rest ∧ fault.position = Text.byteLength before
  position_lt : fault.position < Text.byteLength source
  /-- A tag, or another piece of markup, begins there. -/
  begins : (∀ p, fault ≠ .malformed .doctypeNameless p) →
    ∃ es rest, Tree.Arrives source fault.position es rest ∧ Lexeme.beginsMarkup rest = true
  /-- A doctype that names nothing is faulty at its closing `>`. -/
  nameless : ∀ p, fault = .malformed .doctypeNameless p → ∃ q es content behind,
    Tree.Arrives source q es ('<' :: '!' :: (content ++ '>' :: behind)) ∧
      Lexeme.cut ('<' :: '!' :: (content ++ '>' :: behind)) = .ok (.doctype content, behind) ∧
      (∀ c ∈ content.drop Lexeme.doctypeKeyword.length, Text.isTagBlank c = true) ∧
      p = q + Text.byteLength ('<' :: '!' :: content)
  /-- An element is reported at its start tag if nothing but whole trees follows that, so that it is
  the innermost open element where the source ends, or if its end tag is found nowhere. -/
  unclosed : ∀ name p, fault = .unclosed name p → ∃ e es rest behind,
    Tree.Arrives source p es rest ∧ (Token.opening e).Begins rest behind ∧ e.name = name ∧
      ((∃ ps ts, e.isVoid = false ∧ Reads behind ps [] ∧
          Token.Derives (ps.map Piece.token) ts ∧
          Tree.Arrives source (Text.byteLength source) (e :: es) []) ∨
        (isRawName name = true ∧ ∀ s, s <:+ behind → Lexeme.closesRaw name s = false))
  /-- The end tag and the innermost open element are those that are named. -/
  mismatched : ∀ expected found p, fault = .mismatched expected found p →
    ∃ innermost outer rest behind, Tree.Arrives source p (innermost :: outer) rest ∧
      innermost.name = expected ∧ (Token.closing found).Begins rest behind ∧
      Text.sameFold expected found = false
  /-- The end tag is the one that is named, and no element is open. -/
  unexpectedEnd : ∀ found p, fault = .unexpectedEnd found p → ∃ rest behind,
    Tree.Arrives source p [] rest ∧ (Token.closing found).Begins rest behind

namespace Tree

open Token (Breaks)

variable {source rest behind : Text} {p : Nat} {es : List Element} {e : Element}
  {fault : MarkupFault}

/-- A piece of markup that is faulty in itself. -/
theorem located_of_markup (harrives : Arrives source p es rest)
    (hbegins : Lexeme.beginsMarkup rest = true) (hfault : (∃ cause, cause ≠ .doctypeNameless ∧
      fault = .malformed cause p) ∨ ∃ name first second, fault = .conflicting name first second p) :
    fault.Located source := by
  have hlt := harrives.position_lt (by rintro rfl; cases hbegins)
  rcases hfault with ⟨cause, hcause, rfl⟩ | ⟨name, first, second, rfl⟩
  · exact {
      boundary := harrives.boundary
      position_lt := hlt
      begins := fun _ => ⟨es, rest, harrives, hbegins⟩
      nameless := fun _ h => absurd (MarkupFault.malformed.inj h).1 hcause
      unclosed := nofun
      mismatched := nofun
      unexpectedEnd := nofun }
  · exact {
      boundary := harrives.boundary
      position_lt := hlt
      begins := fun _ => ⟨es, rest, harrives, hbegins⟩
      nameless := nofun
      unclosed := nofun
      mismatched := nofun
      unexpectedEnd := nofun }

/-- A doctype is faulty at its end, which is still before that of the source. -/
theorem located_of_nameless {content : Text} (harrives : Arrives source p es rest)
    (hne : rest ≠ []) (hcut : Lexeme.cut rest = .ok (.doctype content, behind))
    (hblank : ∀ c ∈ content.drop Lexeme.doctypeKeyword.length, Text.isTagBlank c = true) :
    (MarkupFault.malformed .doctypeNameless (p + 2 + Text.byteLength content)).Located source := by
  have hplace : p + 2 + Text.byteLength content =
      p + Text.byteLength ('<' :: '!' :: content) := by
    have hmark : Text.byteLength ('<' :: '!' :: content) = 2 + Text.byteLength content := by
      rw [Text.byteLength_cons, Text.byteLength_cons, ← Nat.add_assoc]
      rfl
    rw [hmark, Nat.add_assoc]
  have hwritten := (Lexeme.cut_written hne hcut).1
  obtain rfl : rest = '<' :: '!' :: (content ++ '>' :: behind) := by
    rw [← hwritten]
    simp [Lexeme.written]
  obtain ⟨before, rfl, rfl⟩ := harrives.exists_before
  rw [hplace]
  exact {
    boundary := ⟨before ++ '<' :: '!' :: content, '>' :: behind, by simp,
      (Text.byteLength_append _ _).symm⟩
    position_lt := by
      have hsize := Char.utf8Size_pos '>'
      simp only [MarkupFault.position, Text.byteLength_append, Text.byteLength_cons]
      omega
    begins := fun h => absurd rfl (h _)
    nameless := by
      rintro _ ⟨⟩
      exact ⟨_, es, content, behind, harrives, hcut, hblank, rfl⟩
    unclosed := nofun
    mismatched := nofun
    unexpectedEnd := nofun }

/-- An element that is not closed. -/
theorem located_of_unclosed (harrives : Arrives source p es rest)
    (hbegins : (Token.opening e).Begins rest behind)
    (hopen : (∃ ps ts, e.isVoid = false ∧ Reads behind ps [] ∧
          Token.Derives (ps.map Piece.token) ts ∧
          Arrives source (Text.byteLength source) (e :: es) []) ∨
        (isRawName e.name = true ∧ ∀ s, s <:+ behind → Lexeme.closesRaw e.name s = false)) :
    (MarkupFault.unclosed e.name p).Located source where
  boundary := harrives.boundary
  position_lt := harrives.position_lt (hbegins.ne_nil nofun)
  begins _ := ⟨es, rest, harrives, hbegins.beginsMarkup nofun⟩
  nameless := nofun
  unclosed := by
    rintro _ _ ⟨⟩
    exact ⟨e, es, rest, behind, harrives, hbegins, rfl, hopen⟩
  mismatched := nofun
  unexpectedEnd := nofun

/-- A search that finds nothing has passed every suffix. -/
theorem closesRaw_eq_false_of_breakBefore {name : Text}
    (h : (Text.breakBefore (Lexeme.closesRaw name) behind).2 = []) (s : Text) (hs : s <:+ behind) :
    Lexeme.closesRaw name s = false := by
  by_cases hne : s = []
  · rw [hne]
    rfl
  · have hbreak := Text.breakBefore_append (Lexeme.closesRaw name) behind
    rw [h, List.append_nil] at hbreak
    have hall : Text.breakBefore (Lexeme.closesRaw name) (behind ++ []) = (behind, []) := by
      rw [List.append_nil]
      exact Prod.ext hbreak h
    have hpassed := Text.not_of_breakBefore_eq hall hne hs
    rwa [List.append_nil] at hpassed

theorem located_of_breaks {items : List (Nat × Token)} (harrives : Arrives source p es rest)
    (hbreaks : Breaks p rest items fault) : fault.Located source := by
  have hne := hbreaks.ne_nil
  cases hbreaks with
  | cut hcut =>
    obtain ⟨hbegins, hcause⟩ := Lexeme.cut_eq_error hcut
    exact located_of_markup harrives hbegins (Or.inl ⟨_, hcause, rfl⟩)
  | lexeme hcut hfault =>
    have hbegins : ∀ {content behind : Text}, Lexeme.cut rest = .ok (.tag content, behind) →
        Lexeme.beginsMarkup rest = true := fun htag =>
      (Lexeme.isMarkup_or_of_cut htag).elim And.left fun htext => nomatch htext.2.1
    cases Lexeme.faulty_of_ofLexeme hfault with
    | malformed hcause =>
      exact located_of_markup harrives (hbegins hcut) (Or.inl ⟨_, hcause, rfl⟩)
    | conflicting =>
      exact located_of_markup harrives (hbegins hcut) (Or.inr ⟨_, _, _, rfl⟩)
    | nameless hblank => exact located_of_nameless harrives hne hcut hblank
  | raw hcut hmeans hraw hends =>
    exact located_of_unclosed harrives ⟨_, hcut, hmeans⟩
      (Or.inr ⟨hraw, closesRaw_eq_false_of_breakBefore hends⟩)

/-- **What a source fails for is where the fault says that it is.** -/
theorem Fails.located (h : Fails source fault) : fault.Located source := by
  cases h with
  | breaks harrives hbreaks => exact located_of_breaks harrives hbreaks
  | unclosed harrives hbegins hvoid hraw hreads hinside =>
    obtain ⟨q, hend⟩ := harrives.inside hbegins hvoid hraw hreads hinside
    obtain rfl := hend.position_of_nil
    exact located_of_unclosed harrives hbegins (Or.inl ⟨_, _, hvoid, hreads, hinside, hend⟩)
  | mismatched harrives hbegins hvoid hname =>
    exact {
      boundary := harrives.boundary
      position_lt := harrives.position_lt (hbegins.ne_nil nofun)
      begins := fun _ => ⟨_, _, harrives, hbegins.beginsMarkup nofun⟩
      nameless := nofun
      unclosed := nofun
      mismatched := by
        rintro _ _ _ ⟨⟩
        exact ⟨_, _, _, _, harrives, rfl, hbegins, hname⟩
      unexpectedEnd := nofun }
  | unexpectedEnd harrives hbegins hvoid =>
    exact {
      boundary := harrives.boundary
      position_lt := harrives.position_lt (hbegins.ne_nil nofun)
      begins := fun _ => ⟨_, _, harrives, hbegins.beginsMarkup nofun⟩
      nameless := nofun
      unclosed := nofun
      mismatched := nofun
      unexpectedEnd := by
        rintro _ _ ⟨⟩
        exact ⟨_, _, harrives, hbegins⟩ }

end Tree

namespace Document

/-- **Every fault that a source is refused for is where it says.** -/
theorem located_of_parse {source : Text} {fault : MarkupFault}
    (h : parse source = .error fault) : fault.Located source :=
  (Tree.fails_of_parse (parse_eq_error.mp h)).located

/-- An end tag that does not fit, behind characters of more than one byte. -/
def misplacedSource : Text := "é<b><i>ü</b>".toList

theorem located_misplacedSource :
    parse misplacedSource = .error (.mismatched ['i'] ['b'] 10) ∧
    (MarkupFault.mismatched ['i'] ['b'] 10).Located misplacedSource := by
  have hparse : parse misplacedSource = .error (.mismatched ['i'] ['b'] 10) := by decide +kernel
  exact ⟨hparse, located_of_parse hparse⟩

end Document

end Stencil
