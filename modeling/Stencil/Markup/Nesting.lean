/-
# From tokens to trees

The elements that are open at a place in the source are a list, innermost first.  Each keeps the
trees that were finished before it inside the element around it, so that closing an element puts it
behind them.

Void elements never stay open, and an end tag with the name of one closes nothing.  Every other end
tag closes the innermost open element and must bear its name, the case of letters aside.

This is the part of the parser that keeps a stack.  Its `append` puts a node under the innermost
open element, `read_tag` opens an element, and `handle_end` closes one; `nest` is all three, with a
case for each token, and with what is asked of the stack at the end of the source.  The stack there
holds the numbers of nodes, and the document grows with each call of `append`.  Here it holds trees,
so that what is read of a source does not depend on a table; the numbers come out the same
(`Document.parseByAppending_eq`).
-/
import Stencil.Markup.Token
import Stencil.Markup.Tree

namespace Stencil

/-- An element whose end tag has not come yet. -/
structure OpenElement where
  element : Element
  /-- Where its start tag is. -/
  position : Nat
  /-- The trees before it in the element around it, last first. -/
  before : List Tree

namespace Token

/-- Builds the trees of a list of tokens behind the trees `done` (last first) inside the open
elements; `fault` is what ended the tokens. -/
def nest (fault : Option MarkupFault) :
    List OpenElement → List Tree → List (Nat × Token) → Except MarkupFault (List Tree)
  | opened, done, [] =>
    match fault, opened with
    | some found, _ => .error found
    | none, [] => .ok done.reverse
    | none, innermost :: _ => .error (.unclosed innermost.element.name innermost.position)
  | opened, done, (position, token) :: rest =>
    match token with
    | text t => nest fault opened (.leaf (.text t) :: done) rest
    | doctype t => nest fault opened (.leaf (.doctype t) :: done) rest
    | dropped => nest fault opened done rest
    | empty e => nest fault opened (.leaf (.element e) :: done) rest
    | opening e =>
      if e.isVoid then nest fault opened (.leaf (.element e) :: done) rest
      else nest fault (⟨e, position, done⟩ :: opened) [] rest
    | closing name =>
      if isVoidName name then nest fault opened done rest
      else
        match opened with
        | [] => .error (.unexpectedEnd name position)
        | innermost :: outer =>
          if Text.sameFold innermost.element.name name then
            nest fault outer (.node (.element innermost.element) done.reverse :: innermost.before)
              rest
          else .error (.mismatched innermost.element.name name position)

end Token

/-- **The trees that a text of markup writes.** -/
def Tree.parse (source : Text) : Except MarkupFault (List Tree) :=
  let tokens := Token.scan source
  Token.nest tokens.fault [] [] tokens.items

end Stencil
