/-
# Rendering documents

A document is rendered in place.  The children of a node are visited one after the other, and each
visit tells how many nodes now stand in the place of the one visited: none if its chain took it out,
one if it stayed, and any number if it was the usage of a component and its rendered body was put
there.  The next visit begins behind them.

What bounds this is made explicit three times.  There are no more visits to the children of a node
than it had children, since each visit leaves fewer behind it (`visitChildren`).  Visits nest no
deeper than the document has nodes (`visitNode`).  And bodies nest no deeper than the settings allow
(`renderSource`): at the last level a usage is a fault.

The functions are `render_document` (`renderWith` and `renderSource`), `render_children`
(`visitChildren`), `render_node` (`visitNode`) and `expand`, which is the pair of `filledBody` and
the bodies that `renderSource` hands down.
-/
import Stencil.Component.Library
import Stencil.Component.Slot
import Stencil.Render.Chain
import Stencil.Render.Settings

namespace Stencil

/-! ## 1. Usages -/

namespace Document

/-- What a usage puts into a slot.  An attribute that it does not have leaves nothing. -/
def slotText (d : Document) (usage : NodeId) : Slot → Text
  | .children => d.inner usage
  | .value name raw =>
    match (d.element? usage).bind (·.value? name) with
    | none => []
    | some value => if raw then value else Text.inert value

/-- The body of a component, filled for a usage. -/
def filledBody (d : Document) (usage : NodeId) (c : Component) : Text :=
  Body.fill (d.slotText usage) c.body

/-- Takes the declaration off a node. -/
def clearDeclaration (d : Document) (id : NodeId) : Document :=
  d.modifyElement id Element.withoutDeclaration

end Document

/-! ## 2. One level -/

namespace Render

/-- What the usages in a document are answered with: the rendered body of a component for its usage
at a node. -/
abbrev Bodies := Document → NodeId → Component → Except RenderFault Document

/-- Visits the children of `parent` from the given place on.  A visit changes the document and tells
how many nodes it leaves in the place of the one visited. -/
def visitChildren (visit : Document → NodeId → Except RenderFault (Document × Nat))
    (parent : NodeId) : (visits : Nat) → Document → (place : Nat) → Except RenderFault Document
  | 0, d, _ => .ok d
  | visits + 1, d, place =>
    match (d.children parent)[place]? with
    | none => .ok d
    | some child =>
      match visit d child with
      | .error fault => .error fault
      | .ok (d', left) => visitChildren visit parent visits d' (place + left)

/-- Renders a node in place and tells how many nodes stand there now; `nesting` bounds how deep
nodes lie in each other. -/
def visitNode (l : Library) (bodies : Bodies) :
    (nesting : Nat) → Document → NodeId → Except RenderFault (Document × Nat)
  | 0, d, _ => .ok (d, 1)
  | nesting + 1, d, id =>
    match d.element? id with
    | none => .ok (d, 1)
    | some e =>
      match (d.clearDeclaration id).settleChain id with
      | .error fault => .error fault
      | .ok d =>
        if (d.parent? id).isNone then .ok (d, 0)
        else
          match l.lookup e.name with
          | some c => (bodies d id c).map (d.replace id)
          | none =>
            (visitChildren (visitNode l bodies nesting) id (d.children id).length d 0).map (·, 1)

/-- Renders all nodes of a document. -/
def visitDocument (l : Library) (bodies : Bodies) (d : Document) : Except RenderFault Document :=
  visitChildren (visitNode l bodies d.size) Document.root (d.children Document.root).length d 0

/-! ## 3. All levels -/

/-- Renders a source with the given bodies of components. -/
def renderWith (l : Library) (bodies : Bodies) (source : Text) : Except RenderFault Document :=
  match Document.parse source with
  | .error fault => .error (.markup fault)
  | .ok d => visitDocument l bodies d

/-- **Renders a source**, in which components may nest so many levels deep; `limit` is the depth
that is reported if they nest deeper. -/
def renderSource (l : Library) (limit : UInt64) :
    (levels : Nat) → Text → Except RenderFault Document
  | 0 => renderWith l fun _ _ c => .error (.tooDeep c.key limit)
  | levels + 1 =>
    renderWith l fun d usage c => renderSource l limit levels (d.filledBody usage c)

end Render

end Stencil
