/-
# Lexemes

A lexeme is one piece of markup as it stands in the source, before anything in it is looked at: a
tag, a comment, a CDATA section, a doctype, a processing instruction, or a run of text.  `written`
gives back the piece, so that lexemes and source can be compared character by character.

`Lexeme.cut` takes the first lexeme off a source.  Its law is `cut_written`: what it yields is what
stood there, and it is never nothing.

Where a piece begins and ends is what `opens_tag`, `text_len` and `read_event` decide.  `opens_tag`
is `beginsMarkup`; `text_len` is the search for its first place in `cut`; and `read_event`, which is
only asked where `opens_tag` said so, is the choice between `cutDeclaration`, `cutInstruction` and
`cutTag`.  They are put together here because the loop of the parser calls them in turn at one place
of the source, and nothing that was read before has a part in the answer.
-/
import Stencil.Markup.Tag

namespace Stencil

/-! ## 1. Pieces of markup -/

/-- One piece of markup. -/
inductive Lexeme where
  /-- Text up to the next tag. -/
  | text (run : Text)
  /-- The content of a raw element. -/
  | raw (body : Text)
  /-- A start tag or an end tag, without `<` and `>`. -/
  | tag (content : Text)
  | comment (body : Text)
  | cdata (body : Text)
  /-- A doctype with its keyword, without `<!` and `>`. -/
  | doctype (content : Text)
  /-- A processing instruction or a declaration. -/
  | instruction (body : Text)
  deriving DecidableEq, Repr

namespace Lexeme

/-- The piece as it stands in the source. -/
def written : Lexeme → Text
  | text run => run
  | raw body => body
  | tag content => ['<'] ++ content ++ ['>']
  | comment body => ['<', '!', '-', '-'] ++ body ++ ['-', '-', '>']
  | cdata body => ['<', '!', '[', 'C', 'D', 'A', 'T', 'A', '['] ++ body ++ [']', ']', '>']
  | doctype content => ['<', '!'] ++ content ++ ['>']
  | instruction body => ['<', '?'] ++ body ++ ['?', '>']

/-! ## 2. Ends of pieces -/

/-- The text begins with a `<` that opens a piece: a name, `/` and a name, `!` or `?` comes next.
Any other `<` is text. -/
def beginsMarkup : Text → Bool
  | '<' :: '!' :: _ => true
  | '<' :: '?' :: _ => true
  | '<' :: '/' :: c :: _ => c.isAlpha
  | '<' :: c :: _ => c.isAlpha
  | _ => false

/-- Splits at the first `>` outside quotes; the first argument is the quote that is open. -/
def breakTag : Option Char → Text → Option (Text × Text)
  | _, [] => none
  | none, c :: t =>
    if c = '>' then some ([], t)
    else
      (breakTag (if c = '"' ∨ c = '\'' then some c else none) t).map fun (a, b) => (c :: a, b)
  | some quote, c :: t =>
    (breakTag (if c = quote then none else some quote) t).map fun (a, b) => (c :: a, b)

/-- Splits at the first `>` that closes no `<` before it; the first argument counts the `<` that
are open. -/
def breakBalanced : Nat → Text → Option (Text × Text)
  | _, [] => none
  | depth, c :: t =>
    if c = '>' ∧ depth = 0 then some ([], t)
    else
      let depth' := if c = '>' then depth - 1 else if c = '<' then depth + 1 else depth
      (breakBalanced depth' t).map fun (a, b) => (c :: a, b)

theorem append_of_breakTag {quote : Option Char} {t content rest : Text}
    (h : breakTag quote t = some (content, rest)) : content ++ '>' :: rest = t := by
  induction t generalizing quote content with
  | nil => cases quote <;> exact absurd h (by simp [breakTag])
  | cons c t ih =>
    cases quote with
    | none =>
      rw [breakTag] at h
      split at h
      · next hc => simp_all
      · obtain ⟨⟨a, b⟩, hab, heq⟩ := Option.map_eq_some_iff.mp h
        simp only [Prod.mk.injEq] at heq
        obtain ⟨rfl, rfl⟩ := heq
        rw [List.cons_append, ih hab]
    | some q =>
      rw [breakTag] at h
      obtain ⟨⟨a, b⟩, hab, heq⟩ := Option.map_eq_some_iff.mp h
      simp only [Prod.mk.injEq] at heq
      obtain ⟨rfl, rfl⟩ := heq
      rw [List.cons_append, ih hab]

theorem append_of_breakBalanced {depth : Nat} {t content rest : Text}
    (h : breakBalanced depth t = some (content, rest)) : content ++ '>' :: rest = t := by
  induction t generalizing depth content with
  | nil => exact absurd h (by simp [breakBalanced])
  | cons c t ih =>
    rw [breakBalanced] at h
    split at h
    · next hc => simp_all
    · obtain ⟨⟨a, b⟩, hab, heq⟩ := Option.map_eq_some_iff.mp h
      simp only [Prod.mk.injEq] at heq
      obtain ⟨rfl, rfl⟩ := heq
      rw [List.cons_append, ih hab]

/-! ## 3. One cut -/

/-- The keyword of a doctype. -/
def doctypeKeyword : Text := ['D', 'O', 'C', 'T', 'Y', 'P', 'E']

/-- Cuts what follows `<!`. -/
def cutDeclaration : Text → Except Malformation (Lexeme × Text)
  | '-' :: t =>
    match (Text.after? ['-'] t).bind (Text.breakOn? ['-', '-', '>']) with
    | some (body, rest) => .ok (comment body, rest)
    | none => .error .commentUnclosed
  | '[' :: t =>
    match (Text.after? ['C', 'D', 'A', 'T', 'A', '['] t).bind (Text.breakOn? [']', ']', '>']) with
    | some (body, rest) => .ok (cdata body, rest)
    | none => .error .cdataUnclosed
  | t =>
    if t.head?.any (·.toLower == 'd') then
      match breakBalanced 0 t with
      | some (content, rest) =>
        if Text.sameFold (content.take doctypeKeyword.length) doctypeKeyword then
          .ok (doctype content, rest)
        else .error .doctypeUnclosed
      | none => .error .doctypeUnclosed
    else .error .declarationUnknown

/-- Cuts what follows `<?`.  A `>` right behind it ends nothing. -/
def cutInstruction (t : Text) : Except Malformation (Lexeme × Text) :=
  if t.head? = some '>' then .error .instructionUnclosed
  else
    match Text.breakOn? ['?', '>'] t with
    | some (body, rest) => .ok (instruction body, rest)
    | none => .error .instructionUnclosed

/-- Cuts what follows `<` in a start tag or an end tag. -/
def cutTag (t : Text) : Except Malformation (Lexeme × Text) :=
  match breakTag none t with
  | some (content, rest) => .ok (tag content, rest)
  | none => .error .tagUnclosed

/-- Takes the first lexeme off a source. -/
def cut (t : Text) : Except Malformation (Lexeme × Text) :=
  if beginsMarkup t then
    match t with
    | '<' :: '!' :: t => cutDeclaration t
    | '<' :: '?' :: t => cutInstruction t
    | _ => cutTag (t.drop 1)
  else
    let r := Text.breakBefore beginsMarkup t
    .ok (text r.1, r.2)

theorem cutDeclaration_written {t rest : Text} {l : Lexeme}
    (h : cutDeclaration t = .ok (l, rest)) :
    l.written ++ rest = '<' :: '!' :: t ∧ l.written ≠ [] := by
  unfold cutDeclaration at h
  split at h
  · split at h
    · next body tail heq =>
      obtain ⟨u, hu, hbreak⟩ := Option.bind_eq_some_iff.mp heq
      have hafter := Text.append_of_after? hu
      have hbody := Text.append_of_breakOn? hbreak
      simp only [Except.ok.injEq, Prod.mk.injEq] at h
      obtain ⟨rfl, rfl⟩ := h
      rw [← hafter, ← hbody]
      simp [written]
    · exact absurd h (by simp)
  · split at h
    · next body tail heq =>
      obtain ⟨u, hu, hbreak⟩ := Option.bind_eq_some_iff.mp heq
      have hafter := Text.append_of_after? hu
      have hbody := Text.append_of_breakOn? hbreak
      simp only [Except.ok.injEq, Prod.mk.injEq] at h
      obtain ⟨rfl, rfl⟩ := h
      rw [← hafter, ← hbody]
      simp [written]
    · exact absurd h (by simp)
  · split at h
    · split at h
      · next content tail heq =>
        split at h
        · simp only [Except.ok.injEq, Prod.mk.injEq] at h
          obtain ⟨rfl, rfl⟩ := h
          rw [← append_of_breakBalanced heq]
          simp [written]
        · exact absurd h (by simp)
      · exact absurd h (by simp)
    · exact absurd h (by simp)

theorem cutInstruction_written {t rest : Text} {l : Lexeme}
    (h : cutInstruction t = .ok (l, rest)) :
    l.written ++ rest = '<' :: '?' :: t ∧ l.written ≠ [] := by
  unfold cutInstruction at h
  split at h
  · exact absurd h (by simp)
  · split at h
    · next body tail heq =>
      simp only [Except.ok.injEq, Prod.mk.injEq] at h
      obtain ⟨rfl, rfl⟩ := h
      rw [← Text.append_of_breakOn? heq]
      simp [written]
    · exact absurd h (by simp)

theorem cutTag_written {t rest : Text} {l : Lexeme} (h : cutTag t = .ok (l, rest)) :
    l.written ++ rest = '<' :: t ∧ l.written ≠ [] := by
  unfold cutTag at h
  split at h
  · next content tail heq =>
    simp only [Except.ok.injEq, Prod.mk.injEq] at h
    obtain ⟨rfl, rfl⟩ := h
    rw [← append_of_breakTag heq]
    simp [written]
  · exact absurd h (by simp)

/-- A source that opens a tag begins with `<`. -/
theorem eq_cons_of_beginsMarkup {t : Text} (h : beginsMarkup t = true) : t = '<' :: t.drop 1 := by
  unfold beginsMarkup at h
  split at h <;> simp_all

/-- **A cut yields what stood there, and never nothing.** -/
theorem cut_written {t rest : Text} {l : Lexeme} (hne : t ≠ []) (h : cut t = .ok (l, rest)) :
    l.written ++ rest = t ∧ l.written ≠ [] := by
  unfold cut at h
  split at h
  · next hopen =>
    split at h
    · exact cutDeclaration_written h
    · exact cutInstruction_written h
    · rw [eq_cons_of_beginsMarkup hopen]
      exact cutTag_written h
  · next hopen =>
    simp only [Except.ok.injEq, Prod.mk.injEq] at h
    obtain ⟨rfl, rfl⟩ := h
    refine ⟨Text.breakBefore_append beginsMarkup t, ?_⟩
    cases t with
    | nil => exact absurd rfl hne
    | cons c t => simp [written, Text.breakBefore, hopen]

/-- What follows a lexeme is shorter than the source. -/
theorem length_of_cut {t rest : Text} {l : Lexeme} (hne : t ≠ []) (h : cut t = .ok (l, rest)) :
    rest.length < t.length := by
  obtain ⟨hall, hwritten⟩ := cut_written hne h
  have := List.length_pos_iff.mpr hwritten
  rw [← hall, List.length_append]
  omega

end Lexeme

end Stencil
