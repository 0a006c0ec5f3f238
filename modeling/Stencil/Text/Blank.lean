/-
# Blank characters

Three sets of characters count as white space here, each in its own place:

* `isBlank`, the Unicode property White_Space, trims texts, doctypes and the operands of
  conditions;
* `isTagBlank`, the four blanks of markup, separates what stands inside a tag;
* `isAsciiBlank`, those four and the form feed, ends the name of a raw element's end tag.

Each set lies in the one before it (`isTagBlank_isAsciiBlank`, `isAsciiBlank_isBlank`).

The first is `is_whitespace` and the last `is_ascii_whitespace`.
-/
import Stencil.Text.Basic

namespace Stencil.Text

/-! ## 1. The three sets -/

/-- The ranges of code points with the Unicode property White_Space. -/
def blankRanges : List (Nat × Nat) :=
  [(0x09, 0x0D), (0x20, 0x20), (0x85, 0x85), (0xA0, 0xA0), (0x1680, 0x1680), (0x2000, 0x200A),
   (0x2028, 0x2029), (0x202F, 0x202F), (0x205F, 0x205F), (0x3000, 0x3000)]

/-- The character has the Unicode property White_Space. -/
def isBlank (c : Char) : Bool :=
  blankRanges.any fun (first, last) => first ≤ c.toNat && c.toNat ≤ last

/-- The character separates the parts of a tag: space, tab, line feed or carriage return. -/
def isTagBlank (c : Char) : Bool :=
  c == ' ' || c == '\t' || c == '\n' || c == '\r'

/-- The character is one of the blanks of markup or the form feed. -/
def isAsciiBlank (c : Char) : Bool :=
  isTagBlank c || c == '\x0c'

theorem isTagBlank_isAsciiBlank {c : Char} (h : isTagBlank c = true) : isAsciiBlank c = true := by
  simp [isAsciiBlank, h]

theorem isAsciiBlank_isBlank {c : Char} (h : isAsciiBlank c = true) : isBlank c = true := by
  simp only [isAsciiBlank, isTagBlank, Bool.or_eq_true, beq_iff_eq] at h
  rcases h with (((rfl | rfl) | rfl) | rfl) | rfl <;> decide

/-! ## 2. Trimming -/

/-- The text without the characters at its end of which `p` holds. -/
def dropEndWhile (p : Char → Bool) (t : Text) : Text :=
  (t.reverse.dropWhile p).reverse

/-- The text without the white space at both ends. -/
def trim (t : Text) : Text :=
  dropEndWhile isBlank (t.dropWhile isBlank)

end Stencil.Text
