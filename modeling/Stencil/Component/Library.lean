/-
# Libraries of components

A component is an element that declares a name, with all below it.  A library holds components by
key, in increasing order of keys, and the latest declaration of a key counts.

Registering a source takes all declarations in it, also those inside others.  It is all or nothing:
a source that is no markup leaves the library as it was.

`anonymous` is `instantiate`, which takes the declaration off the copy, and `body` is `to_markup`.
`Supply` stands for whatever can `load` the source of a name.
-/
import Stencil.Component.Name
import Stencil.Document.Edit
import Stencil.Document.Walk

namespace Stencil

/-! ## 1. Components -/

/-- A registered component. -/
structure Component where
  key : Text
  /-- The name as it was declared. -/
  name : Text
  /-- The declaring element, the only one at the top of its document. -/
  definition : Document
  deriving DecidableEq, Repr

namespace Component

/-- The component that a node declares.  A name without letters and digits declares none. -/
def declaredAt? (d : Document) (id : NodeId) : Option Component :=
  match (d.element? id).bind Element.declares with
  | none => none
  | some name =>
    if ComponentName.key name = [] then none
    else some ⟨ComponentName.key name, name, d.extract id⟩

/-- The components declared in a document, outer ones first. -/
def declaredIn (d : Document) : List Component :=
  (d.descendants Document.root).filterMap (declaredAt? d)

/-- The definition with the declaration at its top taken off. -/
def anonymous (c : Component) : Document :=
  (c.definition.children Document.root).foldl
    (fun d id => d.modifyElement id Element.withoutDeclaration) c.definition

/-- The body of the component, its slots still open. -/
def body (c : Component) : Text := c.anonymous.print .verbatim

end Component

/-! ## 2. Libraries -/

/-- Components by key, in increasing order of keys. -/
structure Library where
  entries : List (Text × Component)
  deriving DecidableEq, Repr

namespace Library

/-- The library without components. -/
def empty : Library := ⟨[]⟩

/-- Puts an entry in its place, instead of one with the same key. -/
def insertEntry (key : Text) (c : Component) : List (Text × Component) → List (Text × Component)
  | [] => [(key, c)]
  | entry :: rest =>
    if key < entry.1 then (key, c) :: entry :: rest
    else if key = entry.1 then (key, c) :: rest
    else entry :: insertEntry key c rest

/-- Adds a component under its key. -/
def insert (l : Library) (c : Component) : Library := ⟨insertEntry c.key c l.entries⟩

/-- The component of a key. -/
def lookup (l : Library) (key : Text) : Option Component := l.entries.lookup key

/-- The library has a component of the key. -/
def contains (l : Library) (key : Text) : Bool := (l.lookup key).isSome

/-- How many components there are. -/
def size (l : Library) : Nat := l.entries.length

/-- The keys, in increasing order. -/
def keys (l : Library) : List Text := l.entries.map Prod.fst

/-- Adds all components that a source declares, and counts the declarations. -/
def register (l : Library) (source : Text) : Except MarkupFault (Library × Nat) :=
  (Document.parse source).map fun d =>
    let found := Component.declaredIn d
    (found.foldl insert l, found.length)

end Library

/-! ## 3. Supplies -/

/-- Where component sources come from: the markup of a name, if there is any. -/
abbrev Supply := Text → Option Text

namespace Supply

/-- The supply that has nothing. -/
def nothing : Supply := fun _ => none

/-- The supply of the given entries, of which a later one replaces an earlier one. -/
def ofEntries (entries : List (Text × Text)) : Supply := fun name => entries.reverse.lookup name

end Supply

end Stencil
