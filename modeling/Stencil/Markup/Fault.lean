/-
# Faults of markup

Everything that can be wrong with markup, as a cause with a place, and the one wording of each.  A
place is a byte offset into the text that was read.

`Malformation` is what is wrong inside a single piece of markup; `MarkupFault` adds what is wrong
between the pieces: elements that are not closed, end tags that close nothing or the wrong thing,
and two directives of alternatives on one element.

`MarkupFault` is `Error`, whose `Syntax` is `malformed`; `Malformation` has the messages of that
case.
-/
import Stencil.Text.Basic

namespace Stencil

/-! ## 1. One piece of markup -/

/-- What is wrong with a piece of markup. -/
inductive Malformation where
  /-- A tag without its `>`. -/
  | tagUnclosed
  /-- `<!` before anything but a comment, a CDATA section or a doctype. -/
  | declarationUnknown
  | commentUnclosed
  | cdataUnclosed
  | doctypeUnclosed
  /-- A doctype that names no type. -/
  | doctypeNameless
  | instructionUnclosed
  /-- An attribute that ends after its `=`, in a tag of so many bytes. -/
  | valueMissing (length : Nat)
  /-- A quoted value without its second quote, in a tag of so many bytes. -/
  | quoteUnclosed (length : Nat) (quote : Char)
  deriving DecidableEq, Repr

/-- The wording of a malformation. -/
def Malformation.message : Malformation → Text
  | tagUnclosed =>
    "syntax error: tag not closed: `>` not found before end of input".toList
  | declarationUnknown =>
    "syntax error: unknown or missed symbol in markup".toList
  | commentUnclosed =>
    "syntax error: comment not closed: `-->` not found before end of input".toList
  | cdataUnclosed =>
    "syntax error: CDATA not closed: `]]>` not found before end of input".toList
  | doctypeUnclosed =>
    "syntax error: DOCTYPE not closed: `>` not found before end of input".toList
  | doctypeNameless =>
    ("ill-formed document: `<!DOCTYPE>` declaration does not contain " ++
      "a name of a document type").toList
  | instructionUnclosed =>
    ("syntax error: processing instruction or xml declaration not closed: " ++
      "`?>` not found before end of input").toList
  | valueMissing length =>
    "invalid attribute: position ".toList ++ Text.decimal length ++
      ": `=` must be followed by an attribute value".toList
  | quoteUnclosed length quote =>
    "invalid attribute: position ".toList ++ Text.decimal length ++
      ": missing closing quote `".toList ++ [quote] ++ "` in attribute value".toList

/-! ## 2. A text of markup -/

/-- Why a text is no markup. -/
inductive MarkupFault where
  | malformed (cause : Malformation) (position : Nat)
  /-- The element was still open when the text ended. -/
  | unclosed (name : Text) (position : Nat)
  /-- An end tag found where that of another element was due. -/
  | mismatched (expected found : Text) (position : Nat)
  /-- An end tag found where no element was open. -/
  | unexpectedEnd (name : Text) (position : Nat)
  /-- Two directives of alternatives on one element. -/
  | conflicting (element first second : Text) (position : Nat)
  deriving DecidableEq, Repr

namespace MarkupFault

/-- Where the fault is, as a byte offset. -/
def position : MarkupFault → Nat
  | malformed _ position => position
  | unclosed _ position => position
  | mismatched _ _ position => position
  | unexpectedEnd _ position => position
  | conflicting _ _ _ position => position

/-- The wording of a fault. -/
def message : MarkupFault → Text
  | malformed cause position =>
    "markup syntax error at byte ".toList ++ Text.decimal position ++ ": ".toList ++ cause.message
  | unclosed name position =>
    "unclosed element <".toList ++ name ++ "> opened at byte ".toList ++ Text.decimal position
  | mismatched expected found position =>
    "mismatched end tag at byte ".toList ++ Text.decimal position ++ ": expected </".toList ++
      expected ++ ">, found </".toList ++ found ++ ">".toList
  | unexpectedEnd name position =>
    "unexpected end tag </".toList ++ name ++ "> at byte ".toList ++ Text.decimal position
  | conflicting element first second position =>
    "element <".toList ++ element ++ "> at byte ".toList ++ Text.decimal position ++
      " carries both ".toList ++ first ++ " and ".toList ++ second

end MarkupFault

end Stencil
