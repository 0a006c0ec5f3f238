/-
# Editing documents

The four ways to change a document, beside changes inside one element:

* `append` makes a node, as the last child of another;
* `detach` takes a node out, with all below it;
* `replace` puts copies of other trees in the place of a node;
* `extract` copies a node, with all below it, into a document of its own.

Parent and children are kept in step by all of them, and a copy is numbered like any new tree.

`replace` is `replace_with_fragment`.  Both `replace` and `extract` take the tree at a node and
number it, where `import` goes through the nodes of the other document one by one; what comes of it
is the same (`replaceByCopying_eq`, `extractByCopying_eq`).
-/
import Stencil.Document.Basic

namespace Stencil.Document

/-! ## 1. One node -/

/-- Changes the node of a number, if there is one. -/
def modify (d : Document) (id : NodeId) (f : Node → Node) : Document := ⟨d.nodes.modify id f⟩

/-- Changes the element at a node, if it is one. -/
def modifyElement (d : Document) (id : NodeId) (f : Element → Element) : Document :=
  d.modify id fun n => { n with kind := n.kind.mapElement f }

/-- Changes the list of children of a node. -/
def modifyChildren (d : Document) (id : NodeId) (f : List NodeId → List NodeId) : Document :=
  d.modify id fun n => { n with children := f n.children }

/-- Takes the parent of a node away. -/
def orphan (d : Document) (id : NodeId) : Document :=
  d.modify id fun n => { n with parent := none }

/-! ## 2. The shape -/

/-- Makes a node, as the last child of `parent`.  Its number is the size of the document before. -/
def append (d : Document) (parent : NodeId) (kind : NodeKind) : Document :=
  let grown : Document := ⟨d.nodes.push ⟨kind, some parent, []⟩⟩
  grown.modifyChildren parent (· ++ [d.size])

/-- Takes a node out.  Nothing happens to the root and to a node that is out already. -/
def detach (d : Document) (id : NodeId) : Document :=
  match d.parent? id with
  | none => d
  | some parent => (d.orphan id).modifyChildren parent (·.filter (· != id))

/-- Puts `news` in the place of the first `id`. -/
def splice (id : NodeId) (news : List NodeId) : List NodeId → List NodeId
  | [] => []
  | c :: rest => if c = id then news ++ rest else c :: splice id news rest

/-- Puts copies of the top trees of `fragment` in the place of a node and tells how many there are.
A node without a parent has no place: it stays, and the answer is 0. -/
def replace (d : Document) (id : NodeId) (fragment : Document) : Document × Nat :=
  match d.parent? id with
  | none => (d, 0)
  | some parent =>
    if (d.children parent).contains id then
      let trees := fragment.trees
      let grown : Document := ⟨d.nodes ++ (Tree.numberedAll parent d.size trees).toArray⟩
      ((grown.orphan id).modifyChildren parent (splice id (Tree.topIds d.size trees)),
        trees.length)
    else (d, 0)

/-- Copies a node, with all below it, into a document of its own. -/
def extract (d : Document) (id : NodeId) : Document := ofTrees [d.tree id]

end Stencil.Document
