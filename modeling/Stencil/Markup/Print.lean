/-
# Printing trees

A tree is printed as it was read: texts and attribute values as they stand, directives in front of
the attributes and encoded, since they are kept decoded.  Only the form is the printer's own: one
blank before an attribute, double quotes unless the value holds some and no single ones, and no
value at all if it is empty.

`Layout.compact` drops texts of white space and trims the others.  A trimmed end keeps one space if
the blank next to the text is on its line, that is, not a line break.

The functions are `write_node` and `write_children` (`Tree.print` and `Tree.printAll`),
`write_start_tag` (`printOpening`), `write_directive` and `compact_text` (`compacted`).
-/
import Stencil.Text.Blank
import Stencil.Markup.Tree

namespace Stencil

/-! ## 1. Tags -/

/-- A directive with a value. -/
def printDirective (keyword value : Text) : Text :=
  ' ' :: keyword ++ '=' :: '"' :: Text.quoted value ++ ['"']

namespace Branch

/-- The directive as an attribute. -/
def print (b : Branch) : Text :=
  match b.condition? with
  | some condition => printDirective b.keyword condition
  | none => ' ' :: b.keyword

end Branch

namespace Attribute

/-- The quote that a raw value is written in. -/
def quoteFor (value : Text) : Char :=
  if value.contains '"' && !value.contains '\'' then '\'' else '"'

/-- The attribute as it stands in a tag. -/
def print (a : Attribute) : Text :=
  if a.value = [] then ' ' :: a.name
  else ' ' :: a.name ++ '=' :: quoteFor a.value :: a.value ++ [quoteFor a.value]

end Attribute

namespace Element

/-- The start tag up to its end: `<`, the name, directives, attributes. -/
def printOpening (e : Element) : Text :=
  '<' :: e.name ++ (e.declares.map (printDirective declarationKeyword)).getD [] ++
    (e.branch.map Branch.print).getD [] ++ e.attributes.flatMap Attribute.print

/-- The end tag. -/
def printClosing (e : Element) : Text := '<' :: '/' :: e.name ++ ['>']

/-- The element around the printed children; `childless` tells that there are none. -/
def printAround (e : Element) (childless : Bool) (inner : Text) : Text :=
  if childless && e.selfClosing then e.printOpening ++ ['/', '>']
  else if childless && e.isVoid then e.printOpening ++ ['>']
  else e.printOpening ++ '>' :: inner ++ e.printClosing

end Element

/-! ## 2. Texts -/

/-- What is done to the white space of texts. -/
inductive Layout where
  | verbatim
  | compact
  deriving DecidableEq, Repr

namespace Layout

/-- The blank keeps a space at the end of a trimmed text. -/
def keepsSpace (c : Char) : Bool := Text.isBlank c && c != '\n' && c != '\r'

/-- The space that remains of the blanks at one end, of which `edge` is next to the text. -/
def spaceFor (edge : Option Char) : Text := if edge.any keepsSpace then [' '] else []

/-- The compact form of a text; empty if the text has nothing but white space. -/
def compacted (t : Text) : Text :=
  let core := Text.trim t
  if core = [] then []
  else
    spaceFor (t.takeWhile Text.isBlank).getLast? ++ core ++
      spaceFor (t.reverse.takeWhile Text.isBlank).getLast?

/-- A text as it is printed. -/
def apply : Layout → Text → Text
  | verbatim, t => t
  | compact, t => compacted t

end Layout

/-! ## 3. Trees -/

namespace Tree

mutual

/-- The markup of a tree.  Texts and doctypes show nothing that may stand under them. -/
def print (layout : Layout) : Tree → Text
  | node (.element e) children => e.printAround children.isEmpty (printAll layout children)
  | node .fragment children => printAll layout children
  | node (.text t) _ => layout.apply t
  | node (.doctype t) _ => ['<', '!', 'D', 'O', 'C', 'T', 'Y', 'P', 'E', ' '] ++ t ++ ['>']

/-- The markup of a list of trees. -/
def printAll (layout : Layout) : List Tree → Text
  | [] => []
  | t :: rest => t.print layout ++ printAll layout rest

end

end Tree

end Stencil
