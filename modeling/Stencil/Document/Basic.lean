/-
# Documents

A document is a table of nodes, numbered from 0, each with its parent and its children.  Node 0 is
the fragment at the root.  Nodes are never taken out of the table: one that was removed has lost its
parent and stays where it is, with all below it, so a number means the same node for ever.

Two ways lead between trees and documents.  `Tree.numbered` lists the nodes of a tree from the top
down and from left to right, numbered on from a given number, and `Document.ofTrees` makes a
document of such a list.  `Document.tree` is the tree that stands at a node; everything that is said
about the content of a document, its markup above all, is said of that tree.

`Document.parse` numbers the trees when all are read.  The loop of the parser appends each node when
its token is read; the numbers are the same (`Document.parseByAppending_eq`).  `print` is
`to_html_with`, `outer` is `outer_html`, and `inner` is `inner_html`.
-/
import Stencil.Markup.Nesting
import Stencil.Markup.Print

namespace Stencil

/-- The number of a node in its document. -/
abbrev NodeId := Nat

/-- An entry of a document. -/
structure Node where
  kind : NodeKind
  /-- None for the root and for nodes that were taken out. -/
  parent : Option NodeId
  children : List NodeId
  deriving DecidableEq, Repr

/-- A table of nodes. -/
structure Document where
  nodes : Array Node
  deriving DecidableEq, Repr

/-! ## 1. Looking at a node -/

namespace Document

/-- The number of the root. -/
def root : NodeId := 0

/-- How many nodes were ever made. -/
def size (d : Document) : Nat := d.nodes.size

/-- The node of a number. -/
def node? (d : Document) (id : NodeId) : Option Node := d.nodes[id]?

/-- What the node is; a number without a node counts as an empty fragment. -/
def kind (d : Document) (id : NodeId) : NodeKind :=
  match d.node? id with
  | some n => n.kind
  | none => .fragment

/-- The parent of the node, if it has one. -/
def parent? (d : Document) (id : NodeId) : Option NodeId := (d.node? id).bind Node.parent

/-- The children of the node, in order. -/
def children (d : Document) (id : NodeId) : List NodeId :=
  match d.node? id with
  | some n => n.children
  | none => []

/-- The element at the node, if it is one. -/
def element? (d : Document) (id : NodeId) : Option Element := (d.kind id).element?

/-! ## 2. The tree at a node -/

/-- The tree at a node, down to the given depth. -/
def treeTo (d : Document) : (depth : Nat) → NodeId → Tree
  | 0, id => .leaf (d.kind id)
  | depth + 1, id => .node (d.kind id) ((d.children id).map (d.treeTo depth))

/-- **The tree at a node.**  Children have greater numbers than their parents, so no branch is
longer than the table. -/
def tree (d : Document) (id : NodeId) : Tree := d.treeTo d.size id

/-- The trees at the top. -/
def trees (d : Document) : List Tree := (d.children root).map d.tree

/-! ## 3. Markup -/

/-- The markup of the whole document. -/
def print (d : Document) (layout : Layout) : Text := (d.tree root).print layout

/-- The markup of a node. -/
def outer (d : Document) (id : NodeId) : Text := (d.tree id).print .verbatim

/-- The markup of what is under a node. -/
def inner (d : Document) (id : NodeId) : Text :=
  Tree.printAll .verbatim ((d.children id).map d.tree)

end Document

/-! ## 4. Numbering trees -/

namespace Tree

/-- The numbers of the top nodes of trees whose nodes are numbered from `start`. -/
def topIds (start : NodeId) : List Tree → List NodeId
  | [] => []
  | t :: rest => start :: topIds (start + t.size) rest

mutual

/-- The nodes of a tree under `parent`, numbered from `start`. -/
def numbered (parent start : NodeId) : Tree → List Node
  | node kind children =>
    ⟨kind, some parent, topIds (start + 1) children⟩ :: numberedAll start (start + 1) children

/-- The nodes of trees under `parent`, numbered from `start`. -/
def numberedAll (parent start : NodeId) : List Tree → List Node
  | [] => []
  | t :: rest => numbered parent start t ++ numberedAll parent (start + t.size) rest

end

end Tree

namespace Document

/-- The document with the given trees at its top. -/
def ofTrees (trees : List Tree) : Document :=
  ⟨(⟨.fragment, none, Tree.topIds 1 trees⟩ :: Tree.numberedAll root 1 trees).toArray⟩

/-- The document without content. -/
def empty : Document := ofTrees []

/-- **The document that a text of markup writes**: all of it is read, and then numbered. -/
def parse (source : Text) : Except MarkupFault Document := (Tree.parse source).map ofTrees

end Document

end Stencil
