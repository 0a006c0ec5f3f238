/-
# Settings in JSON

Settings are written as a JSON object with two members.  They are read from such an object, in which
either member may be left out and the order is free, and from an array of their values in order, of
which the last ones may be left out.  Nothing else is settings: no other member, no member twice,
and for the depth no sign, point, exponent or value of more than 64 bits.

Text is first read as JSON tokens, each of which ends where it must; settings are then one of six
shapes of token lists.

`read?` and `write` stand for the conversions that are derived for `RenderOptions`, in which no
unknown member is let in.
-/
import Stencil.Render.Settings
import Stencil.Text.Reference

namespace Stencil

/-! ## 1. Tokens of JSON -/

/-- A token of JSON; of the values, those that settings are made of. -/
inductive JsonToken where
  /-- One of the six marks of structure. -/
  | mark (c : Char)
  | string (t : Text)
  /-- A natural number. -/
  | number (n : Nat)
  | flag (b : Bool)
  deriving DecidableEq, Repr

namespace JsonToken

/-- The white space of JSON. -/
def isBlank (c : Char) : Bool := c == ' ' || c == '\t' || c == '\n' || c == '\r'

/-- The marks of structure. -/
def marks : Text := ['{', '}', '[', ']', ':', ',']

/-- The character that a backslash and a letter stand for. -/
def escaped : List (Char × Char) :=
  [('"', '"'), ('\\', '\\'), ('/', '/'), ('b', '\x08'), ('f', '\x0c'), ('n', '\n'), ('r', '\r'),
   ('t', '\t')]

/-- Puts a character in front of what was read of a string, if there is one and the rest could be
read. -/
def pushChar : Option Char → Option (Text × Text) → Option (Text × Text)
  | some c, some (content, rest) => some (c :: content, rest)
  | _, _ => none

/-- Reads a string up to its closing quote. -/
def readString? : Text → Option (Text × Text)
  | [] => none
  | '"' :: t => some ([], t)
  | '\\' :: 'u' :: a :: b :: c :: d :: t =>
    pushChar ((Text.number? 16 [a, b, c, d]).bind Text.scalar?) (readString? t)
  | '\\' :: letter :: t => pushChar (escaped.lookup letter) (readString? t)
  | c :: t => if c.toNat < 0x20 then none else pushChar (some c) (readString? t)

/-- The words for truth values, without their first letters. -/
def readFlag? (b : Bool) (t : Text) : Option (JsonToken × Text) :=
  (Text.after? (if b then ['r', 'u', 'e'] else ['a', 'l', 's', 'e']) t).map (flag b, ·)

/-- Reads the token that begins with `first` and goes on with `t`. -/
def read? (first : Char) (t : Text) : Option (JsonToken × Text) :=
  if marks.contains first then some (mark first, t)
  else if first = '"' then (readString? t).map fun (content, rest) => (string content, rest)
  else if first = 't' then readFlag? true t
  else if first = 'f' then readFlag? false t
  else if first.isDigit then
    let more := t.takeWhile Char.isDigit
    if first = '0' ∧ more ≠ [] then none
    else (Text.number? 10 (first :: more)).map fun n => (number n, t.dropWhile Char.isDigit)
  else none

theorem exists_of_pushChar {c : Option Char} {r : Option (Text × Text)} {content rest : Text}
    (h : pushChar c r = some (content, rest)) : ∃ content', r = some (content', rest) := by
  unfold pushChar at h
  split at h
  · next c content' rest' =>
    simp only [Option.some.injEq, Prod.mk.injEq] at h
    exact ⟨content', by rw [h.2]⟩
  · exact absurd h (by simp)

/-- What follows a string is no longer than what it was read from. -/
theorem length_of_readString? {t content rest : Text} (h : readString? t = some (content, rest)) :
    rest.length ≤ t.length := by
  fun_induction readString? t generalizing content with
  | case1 => exact absurd h (by simp)
  | case2 t => simp_all
  | case3 a b c d t ih =>
    obtain ⟨content', hrest⟩ := exists_of_pushChar h
    have := ih hrest
    simp only [List.length_cons]
    omega
  | case4 letter t _ ih =>
    obtain ⟨content', hrest⟩ := exists_of_pushChar h
    have := ih hrest
    simp only [List.length_cons]
    omega
  | case5 => exact absurd h (by simp)
  | case6 c t _ _ _ _ ih =>
    obtain ⟨content', hrest⟩ := exists_of_pushChar h
    have := ih hrest
    simp only [List.length_cons]
    omega

/-- What follows a token is no longer than what followed its first character. -/
theorem length_of_read? {first : Char} {t rest : Text} {token : JsonToken}
    (h : read? first t = some (token, rest)) : rest.length ≤ t.length := by
  have hflag : ∀ {b : Bool}, readFlag? b t = some (token, rest) → rest.length ≤ t.length := by
    intro b hb
    obtain ⟨tail, htail, heq⟩ := Option.map_eq_some_iff.mp hb
    have := congrArg List.length (Text.append_of_after? htail)
    simp only [Prod.mk.injEq] at heq
    rw [List.length_append, heq.2] at this
    omega
  unfold read? at h
  split at h
  · simp_all
  · split at h
    · obtain ⟨⟨content, tail⟩, hstring, heq⟩ := Option.map_eq_some_iff.mp h
      simp only [Prod.mk.injEq] at heq
      exact length_of_readString? (heq.2 ▸ hstring)
    · split at h
      · exact hflag h
      · split at h
        · exact hflag h
        · split at h
          · simp only at h
            split at h
            · exact absurd h (by simp)
            · obtain ⟨n, -, heq⟩ := Option.map_eq_some_iff.mp h
              simp only [Prod.mk.injEq] at heq
              rw [← heq.2]
              exact (List.dropWhile_sublist Char.isDigit).length_le
          · exact absurd h (by simp)

/-- The tokens of a text. -/
def scan? (t : Text) : Option (List JsonToken) :=
  match _h : t.dropWhile isBlank with
  | [] => some []
  | first :: rest =>
    match _hread : read? first rest with
    | some (token, tail) => (scan? tail).map (token :: ·)
    | none => none
termination_by t.length
decreasing_by
  have hblank := (List.dropWhile_sublist (l := t) isBlank).length_le
  have htail := length_of_read? _hread
  rw [_h, List.length_cons] at hblank
  omega

end JsonToken

/-! ## 2. Settings -/

namespace Settings

/-- The member for the depth. -/
def depthKey : Text := ['m', 'a', 'x', '_', 'd', 'e', 'p', 't', 'h']

/-- The member for white space. -/
def compactKey : Text :=
  ['c', 'o', 'm', 'p', 'a', 'c', 't', '_', 'w', 'h', 'i', 't', 'e', 's', 'p', 'a', 'c', 'e']

/-- The depth of a number, which must fit. -/
def depth? (n : Nat) : Option UInt64 := if n < UInt64.size then some (UInt64.ofNat n) else none

/-- The settings that tokens write. -/
def ofTokens? : List JsonToken → Option Settings
  | [.mark '{', .mark '}'] => some {}
  | [.mark '{', .string key, .mark ':', .number n, .mark '}'] =>
    if key = depthKey then (depth? n).map fun depth => { maxDepth := depth } else none
  | [.mark '{', .string key, .mark ':', .flag b, .mark '}'] =>
    if key = compactKey then some { compactWhitespace := b } else none
  | [.mark '{', .string key, .mark ':', .number n, .mark ',', .string key', .mark ':', .flag b,
      .mark '}'] =>
    if key = depthKey ∧ key' = compactKey then (depth? n).map (Settings.mk · b) else none
  | [.mark '{', .string key, .mark ':', .flag b, .mark ',', .string key', .mark ':', .number n,
      .mark '}'] =>
    if key = compactKey ∧ key' = depthKey then (depth? n).map (Settings.mk · b) else none
  | [.mark '[', .mark ']'] => some {}
  | [.mark '[', .number n, .mark ']'] => (depth? n).map fun depth => { maxDepth := depth }
  | [.mark '[', .number n, .mark ',', .flag b, .mark ']'] => (depth? n).map (Settings.mk · b)
  | _ => none

/-- **The settings that a JSON text writes.** -/
def read? (t : Text) : Option Settings := (JsonToken.scan? t).bind ofTokens?

/-- The JSON text of settings. -/
def write (s : Settings) : Text :=
  ['{', '"'] ++ depthKey ++ ['"', ':'] ++ Text.decimal s.maxDepth.toNat ++ [',', '"'] ++
    compactKey ++ ['"', ':'] ++
    (if s.compactWhitespace then ['t', 'r', 'u', 'e'] else ['f', 'a', 'l', 's', 'e']) ++ ['}']

end Settings

end Stencil
