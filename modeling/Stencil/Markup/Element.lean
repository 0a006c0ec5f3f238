/-
# Elements

An element is a tag name, the attributes written on it, and at most two directives that were taken
out of the attributes while it was read: the name it declares (`@name`) and its place in a chain of
alternatives (`@if`, `@else-if`, `@else`).

Attributes form a map that keeps the order of insertion: `withAttribute` replaces a value where it
stands and appends a new name, `withoutAttribute` closes the gap.  Their values are raw, that is, as
they were written; `Attribute.decoded` resolves the references in one.

`withAttribute` and `takeAttribute` are `set_attribute` and `remove_attribute`, `value?` is
`get_attribute`, `Branch.ofAttribute?` is the choice that `add_attribute` makes, and `voidNames` is
the table of `is_void_element`.
-/
import Stencil.Text.Reference

namespace Stencil

/-! ## 1. Attributes -/

/-- An attribute with its value as written. -/
structure Attribute where
  name : Text
  value : Text
  deriving DecidableEq, Repr

namespace Attribute

/-- The value with its character references resolved. -/
def decoded (a : Attribute) : Text := Text.decode a.value

/-- The first attribute of the given name. -/
def find? (name : Text) (attributes : List Attribute) : Option Attribute :=
  attributes.find? (·.name == name)

/-- Gives the first attribute of a name a new value in its place; a new name goes to the end. -/
def put (name value : Text) : List Attribute → List Attribute
  | [] => [⟨name, value⟩]
  | a :: rest => if a.name = name then ⟨name, value⟩ :: rest else a :: put name value rest

/-- The attributes without the first one of the given name. -/
def drop (name : Text) (attributes : List Attribute) : List Attribute :=
  attributes.eraseP (·.name == name)

end Attribute

/-! ## 2. Directives -/

/-- The attribute that declares a component. -/
def declarationKeyword : Text := ['@', 'n', 'a', 'm', 'e']

/-- The place of an element in a chain of alternatives. -/
inductive Branch where
  /-- `@if`: opens a chain. -/
  | when (condition : Text)
  /-- `@else-if`: is asked if nothing before it in the chain was chosen. -/
  | orWhen (condition : Text)
  /-- `@else`: is chosen if nothing before it in the chain was. -/
  | otherwise
  deriving DecidableEq, Repr

namespace Branch

/-- The attribute that writes the directive. -/
def keyword : Branch → Text
  | when _ => ['@', 'i', 'f']
  | orWhen _ => ['@', 'e', 'l', 's', 'e', '-', 'i', 'f']
  | otherwise => ['@', 'e', 'l', 's', 'e']

/-- The condition of the directive, if it has one. -/
def condition? : Branch → Option Text
  | when condition => some condition
  | orWhen condition => some condition
  | otherwise => none

/-- The directive continues a chain that another one opened. -/
def continuesChain : Branch → Bool
  | when _ => false
  | orWhen _ => true
  | otherwise => true

/-- The directive that an attribute writes.  A condition is decoded; the value of `@else` means
nothing. -/
def ofAttribute? (a : Attribute) : Option Branch :=
  if a.name = ['@', 'i', 'f'] then some (when a.decoded)
  else if a.name = ['@', 'e', 'l', 's', 'e', '-', 'i', 'f'] then some (orWhen a.decoded)
  else if a.name = ['@', 'e', 'l', 's', 'e'] then some otherwise
  else none

end Branch

/-! ## 3. Elements -/

/-- An element without its children. -/
structure Element where
  /-- The tag name, in the case it was written in. -/
  name : Text
  /-- The component name it declares. -/
  declares : Option Text := none
  /-- Its place in a chain of alternatives. -/
  branch : Option Branch := none
  /-- All other attributes, in order. -/
  attributes : List Attribute := []
  /-- It was written as `<name/>`. -/
  selfClosing : Bool := false
  deriving DecidableEq, Repr

/-- The elements that have no end tag. -/
def voidNames : List Text :=
  ["area".toList, "base".toList, "br".toList, "col".toList, "embed".toList, "hr".toList,
   "img".toList, "input".toList, "link".toList, "meta".toList, "param".toList, "source".toList,
   "track".toList, "wbr".toList]

/-- The elements whose content is not markup. -/
def rawNames : List Text := ["script".toList, "style".toList]

/-- The name is that of a void element, in any case. -/
def isVoidName (name : Text) : Bool := voidNames.any (·.sameFold name)

/-- The name is that of a raw element, in any case. -/
def isRawName (name : Text) : Bool := rawNames.any (·.sameFold name)

namespace Element

/-- The element has no end tag. -/
def isVoid (e : Element) : Bool := isVoidName e.name

/-- The attribute of the given name. -/
def attribute? (e : Element) (name : Text) : Option Attribute :=
  Attribute.find? name e.attributes

/-- The decoded value of the attribute of the given name. -/
def value? (e : Element) (name : Text) : Option Text :=
  (e.attribute? name).map Attribute.decoded

/-- Gives an attribute a raw value. -/
def withAttribute (e : Element) (name value : Text) : Element :=
  { e with attributes := Attribute.put name value e.attributes }

/-- Takes the attribute of the given name away. -/
def withoutAttribute (e : Element) (name : Text) : Element :=
  { e with attributes := Attribute.drop name e.attributes }

/-- Takes the first attribute of the given name away, and tells which one it was. -/
def takeAttribute (e : Element) (name : Text) : Option Attribute × Element :=
  match e.attributes.findIdx? (·.name == name) with
  | none => (none, e)
  | some place => (e.attributes[place]?, { e with attributes := e.attributes.eraseIdx place })

/-- The element as one that declares nothing. -/
def withoutDeclaration (e : Element) : Element := { e with declares := none }

/-- The element as one outside any chain. -/
def withoutBranch (e : Element) : Element := { e with branch := none }

/-- The element carries a directive that continues a chain. -/
def continuesChain (e : Element) : Bool := e.branch.any Branch.continuesChain

end Element

end Stencil
