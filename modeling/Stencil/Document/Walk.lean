/-
# Finding the way in a document

Which elements come after a node among its siblings, which nodes are below it, and whether it still
hangs at the root.

These are `next_element_sibling`, `descendants` and `is_attached`.
-/
import Stencil.Document.Basic

namespace Stencil.Document

/-- The siblings behind a node. -/
def laterSiblings (d : Document) (id : NodeId) : List NodeId :=
  match d.parent? id with
  | none => []
  | some parent => ((d.children parent).dropWhile (· != id)).drop 1

/-- The siblings behind a node that are elements. -/
def laterElements (d : Document) (id : NodeId) : List NodeId :=
  (d.laterSiblings id).filter fun s => (d.element? s).isSome

/-- The next sibling that is an element. -/
def nextElement? (d : Document) (id : NodeId) : Option NodeId := (d.laterElements id).head?

/-- Visits the nodes on a list one after the other, each before its children, for a number of
visits. -/
def preorder (d : Document) : (visits : Nat) → List NodeId → List NodeId
  | 0, _ => []
  | _ + 1, [] => []
  | visits + 1, id :: rest => id :: d.preorder visits (d.children id ++ rest)

/-- The node and all nodes below it, parents before children, left before right.  None is met twice,
so there are no more visits than nodes. -/
def descendants (d : Document) (id : NodeId) : List NodeId := d.preorder d.size [id]

/-- The node that is reached by so many steps from child to parent, or where the steps end. -/
def ancestor (d : Document) : (steps : Nat) → NodeId → NodeId
  | 0, id => id
  | steps + 1, id =>
    match d.parent? id with
    | none => id
    | some parent => d.ancestor steps parent

/-- The node hangs at the root.  Parents have smaller numbers than their children, so the way up is
no longer than the table. -/
def isConnected (d : Document) (id : NodeId) : Bool := d.ancestor d.size id == root

end Stencil.Document
