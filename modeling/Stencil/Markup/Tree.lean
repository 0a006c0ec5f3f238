/-
# Trees

What is read from markup is a list of trees.  A node is an element, a run of text, a doctype, or a
fragment; the last holds what has no element around it and is the root of a document.

`Tree.size` counts nodes.  A document numbers the nodes of a tree from the top down and from left to
right, so the sizes of the trees before a node are what its number is made of.
-/
import Stencil.Markup.Element

namespace Stencil

/-- What a node is. -/
inductive NodeKind where
  /-- Holds nodes that have no element around them. -/
  | fragment
  | element (e : Element)
  /-- Text as it is written, its references unresolved. -/
  | text (t : Text)
  /-- A doctype: what follows the keyword. -/
  | doctype (t : Text)
  deriving DecidableEq, Repr

namespace NodeKind

/-- The element, if the node is one. -/
def element? : NodeKind → Option Element
  | element e => some e
  | _ => none

/-- Changes the element, if the node is one. -/
def mapElement (f : Element → Element) : NodeKind → NodeKind
  | element e => element (f e)
  | kind => kind

end NodeKind

/-- A node with all below it. -/
inductive Tree where
  | node (kind : NodeKind) (children : List Tree)

namespace Tree

/-- The node at the top. -/
def kind : Tree → NodeKind
  | node kind _ => kind

/-- The trees under the top node. -/
def children : Tree → List Tree
  | node _ children => children

/-- A node without children. -/
def leaf (kind : NodeKind) : Tree := node kind []

mutual

/-- The number of nodes of a tree. -/
def size : Tree → Nat
  | node _ children => sizeAll children + 1

/-- The number of nodes of a list of trees. -/
def sizeAll : List Tree → Nat
  | [] => 0
  | t :: rest => t.size + sizeAll rest

end

/-! ## Equality is decidable -/

mutual

/-- Compares the top nodes, then the trees under them. -/
def decEq : (s t : Tree) → Decidable (s = t)
  | node kind children, node kind' children' =>
    if hkind : kind = kind' then
      match decEqAll children children' with
      | isTrue hchildren => isTrue (by rw [hkind, hchildren])
      | isFalse hchildren => isFalse fun h => hchildren (by injection h)
    else isFalse fun h => hkind (by injection h)

/-- Compares tree by tree. -/
def decEqAll : (ss ts : List Tree) → Decidable (ss = ts)
  | [], [] => isTrue rfl
  | [], _ :: _ => isFalse (by simp)
  | _ :: _, [] => isFalse (by simp)
  | s :: ss, t :: ts =>
    match decEq s t, decEqAll ss ts with
    | isTrue hhead, isTrue htail => isTrue (by rw [hhead, htail])
    | isFalse hhead, _ => isFalse fun h => hhead (by injection h)
    | _, isFalse htail => isFalse fun h => htail (by injection h)

end

instance : DecidableEq Tree := decEq

end Tree

end Stencil
