/-
# Chains of alternatives

A chain is an element with `@if` and the elements behind it, among its siblings, that carry
`@else-if` or `@else`; text between them does not matter.  Resolving a chain leaves at most one of
its elements, without the directive, and takes out the others.

Both ways of resolving walk down the list of the elements behind the first.  If the `@if` holds, all
that continue the chain go (`dropRun`).  If it does not, it goes itself, and the first alternative
that holds is chosen (`choose`); behind an `@else` nothing is looked at any more.

`settleChain` is `resolve_chain`, `dropRun` is `discard_rest_of_chain`, and `choose` is the loop of
`resolve_chain` behind an `@if` that does not hold.  Both loops ask for the next element sibling
anew at every step.  Here the elements behind the first are listed once (`laterElements`), since
taking out a node leaves those behind it as they are (`settleChain_exact`).
-/
import Stencil.Condition.Comparison
import Stencil.Document.Edit
import Stencil.Document.Walk
import Stencil.Render.Fault

namespace Stencil.Document

/-- The place of a node in a chain of alternatives. -/
def branch? (d : Document) (id : NodeId) : Option Branch := (d.element? id).bind Element.branch

/-- Takes the directive of alternatives off a node. -/
def clearBranch (d : Document) (id : NodeId) : Document := d.modifyElement id Element.withoutBranch

/-- Takes out the elements at the front of a list that continue a chain. -/
def dropRun (d : Document) : List NodeId → Document
  | [] => d
  | id :: rest =>
    if (d.branch? id).any Branch.continuesChain then (d.detach id).dropRun rest else d

/-- Chooses the first alternative that holds and takes out those before it; after an `@else-if` it
takes out those behind as well. -/
def choose (d : Document) : List NodeId → Document
  | [] => d
  | id :: rest =>
    match d.branch? id with
    | some .otherwise => d.clearBranch id
    | some (.orWhen condition) =>
      if condition.holds then (d.clearBranch id).dropRun rest else (d.detach id).choose rest
    | _ => d

/-- **Resolves the chain that a node opens.**  A node outside any chain is left alone; one that
continues a chain that nothing opened is a fault. -/
def settleChain (d : Document) (id : NodeId) : Except RenderFault Document :=
  match d.element? id with
  | none => .ok d
  | some e =>
    match e.branch with
    | none => .ok d
    | some .otherwise => .error (.danglingOtherwise e.name)
    | some (.orWhen condition) => .error (.danglingOrWhen e.name condition)
    | some (.when condition) =>
      let later := d.laterElements id
      if condition.holds then .ok ((d.clearBranch id).dropRun later)
      else .ok (((d.clearBranch id).detach id).choose later)

end Stencil.Document
