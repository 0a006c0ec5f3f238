/-
# Character references

A raw attribute value may hold references: `&lt;` and its four companions, `&#60;` and `&#x3c;`.
`decode` resolves them, and it is all or nothing: a value with one ill-formed reference anywhere is
kept as it is written, because then the writer did not mean references at all.

The converse direction has two spellings.  `quoted` writes the value of a directive; `inert` writes
a value into markup so that it can open nothing there, and so it guards `/` as well.

The four functions are `decode`, `unescape` (`resolve?`), `escape` (`quoted`) and `sanitize`
(`inert`).
-/
import Stencil.Text.Basic

namespace Stencil.Text

/-! ## 1. One reference -/

/-- The value of a hexadecimal digit, in either case. -/
def digitValue? (c : Char) : Option Nat :=
  if '0' ≤ c && c ≤ '9' then some (c.toNat - '0'.toNat)
  else if 'a' ≤ c && c ≤ 'f' then some (c.toNat - 'a'.toNat + 10)
  else if 'A' ≤ c && c ≤ 'F' then some (c.toNat - 'A'.toNat + 10)
  else none

/-- Reads one more digit of a number written in the given base. -/
def addDigit? (base n : Nat) (c : Char) : Option Nat :=
  match digitValue? c with
  | some d => if d < base then some (n * base + d) else none
  | none => none

/-- The number that one or more digits write in the given base. -/
def number? (base : Nat) (digits : Text) : Option Nat :=
  if digits.isEmpty then none else digits.foldlM (addDigit? base) 0

/-- The character with the given code point; there is none for zero and for surrogates. -/
def scalar? (n : Nat) : Option Char :=
  if n ≠ 0 ∧ n.isValidChar then some (Char.ofNat n) else none

/-- The characters that have a reference by name. -/
def namedReferences : List (Text × Char) :=
  [(['l', 't'], '<'), (['g', 't'], '>'), (['a', 'm', 'p'], '&'), (['a', 'p', 'o', 's'], '\''),
   (['q', 'u', 'o', 't'], '"')]

/-- The character meant by what stands between `&` and `;`. -/
def referent? : Text → Option Char
  | '#' :: 'x' :: digits => (number? 16 digits).bind scalar?
  | '#' :: digits => (number? 10 digits).bind scalar?
  | name => namedReferences.lookup name

/-! ## 2. Decoding -/

/-- Resolves references from left to right.  The first argument is what has been read of an open
reference, newest character first; a reference must be closed before the next `&` and before the
end. -/
def resolve? : Option Text → Text → Option Text
  | none, [] => some []
  | some _, [] => none
  | none, c :: t =>
    if c = '&' then resolve? (some []) t else (resolve? none t).map (c :: ·)
  | some seen, c :: t =>
    if c = '&' then none
    else if c = ';' then
      match referent? seen.reverse with
      | some d => (resolve? none t).map (d :: ·)
      | none => none
    else resolve? (some (c :: seen)) t

/-- **The value a raw text stands for**: its references resolved, or the text itself if one of them
is ill-formed. -/
def decode (raw : Text) : Text := (resolve? none raw).getD raw

/-! ## 3. Encoding -/

/-- One character in the value of a directive. -/
def quotedChar (c : Char) : Text :=
  if c = '<' then ['&', 'l', 't', ';']
  else if c = '>' then ['&', 'g', 't', ';']
  else if c = '&' then ['&', 'a', 'm', 'p', ';']
  else if c = '\'' then ['&', 'a', 'p', 'o', 's', ';']
  else if c = '"' then ['&', 'q', 'u', 'o', 't', ';']
  else [c]

/-- The value of a directive as it is written between double quotes. -/
def quoted (t : Text) : Text := t.flatMap quotedChar

/-- One character of an inserted value. -/
def inertChar (c : Char) : Text :=
  if c = '&' then ['&', 'a', 'm', 'p', ';']
  else if c = '<' then ['&', 'l', 't', ';']
  else if c = '>' then ['&', 'g', 't', ';']
  else if c = '"' then ['&', 'q', 'u', 'o', 't', ';']
  else if c = '\'' then ['&', '#', 'x', '2', '7', ';']
  else if c = '/' then ['&', '#', 'x', '2', 'F', ';']
  else [c]

/-- A value written so that it opens and closes nothing wherever it is inserted into markup. -/
def inert (t : Text) : Text := t.flatMap inertChar

end Stencil.Text
