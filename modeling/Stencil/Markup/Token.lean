/-
# Tokens

A token is what a lexeme means: a start tag is an element with its attributes and directives, an end
tag is a name, and comments, processing instructions and declarations are nothing.  A CDATA section
is kept as text in the form in which it was written.

`ofLexeme` is the choice that `read_tag` makes by the kind of what it has read.  What `read_tag`
then does to the stack and to the document is left to the building of trees.
-/
import Stencil.Markup.Reading

namespace Stencil

/-- The meaning of a lexeme. -/
inductive Token where
  | text (t : Text)
  | doctype (t : Text)
  /-- A start tag. -/
  | opening (e : Element)
  /-- A tag that is start and end at once. -/
  | empty (e : Element)
  /-- An end tag. -/
  | closing (name : Text)
  /-- A piece of markup that leaves nothing behind. -/
  | dropped
  deriving DecidableEq, Repr

namespace Token

/-- The meaning of the content of a tag at `position`. -/
def ofTag (position : Nat) (content : Text) : Except MarkupFault Token :=
  if content.head? = some '/' then
    .ok (closing (Text.dropEndWhile Text.isTagBlank (content.drop 1)))
  else if content.getLast? = some '/' then
    (Tag.element position true content.dropLast).map empty
  else (Tag.element position false content).map opening

/-- The meaning of the content of a doctype at `position`.  One that names nothing is a fault at
its closing `>`. -/
def ofDoctype (position : Nat) (content : Text) : Except MarkupFault Token :=
  let body := (content.drop Lexeme.doctypeKeyword.length).dropWhile Text.isTagBlank
  if body = [] then
    .error (.malformed .doctypeNameless (position + 2 + Text.byteLength content))
  else .ok (doctype (Text.trim body))

/-- The meaning of a lexeme at `position`. -/
def ofLexeme (position : Nat) : Lexeme → Except MarkupFault Token
  | .text run => .ok (text run)
  | .raw body => .ok (text body)
  | .tag content => ofTag position content
  | .comment _ => .ok dropped
  | .cdata body => .ok (text (Lexeme.cdata body).written)
  | .doctype content => ofDoctype position content
  | .instruction _ => .ok dropped

/-- The tokens of a source. -/
def scan (source : Text) : Reading Token := (Lexeme.scan 0 source).interpret ofLexeme

end Token

end Stencil
