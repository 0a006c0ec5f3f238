/-
# Faults of rendering

Why registering or rendering fails, and the wording of each cause.

They are the cases of `RenderError`; `tooDeep` is `ComponentCycle`, and `notSupplied` is
`SourceNotFound`.
-/
import Stencil.Markup.Fault

namespace Stencil

/-- Why registering or rendering fails. -/
inductive RenderFault where
  /-- A source, a template or a filled body is no markup. -/
  | markup (fault : MarkupFault)
  /-- `@else` on an element that no chain reached. -/
  | danglingOtherwise (element : Text)
  /-- `@else-if` on an element that no chain reached. -/
  | danglingOrWhen (element condition : Text)
  /-- A usage of a component below the greatest depth. -/
  | tooDeep (key : Text) (limit : UInt64)
  /-- A supply without the markup of a name. -/
  | notSupplied (name : Text)
  deriving DecidableEq, Repr

namespace RenderFault

/-- What the wordings of both dangling directives end with. -/
def noSibling : Text := ">: no preceding @if or @else-if sibling".toList

/-- The wording of a fault. -/
def message : RenderFault → Text
  | markup fault => "Markup error: ".toList ++ fault.message
  | danglingOtherwise element => "Dangling @else on <".toList ++ element ++ noSibling
  | danglingOrWhen element condition =>
    "Dangling @else-if=\"".toList ++ condition ++ "\" on <".toList ++ element ++ noSibling
  | tooDeep key limit =>
    "Component cycle detected (depth > ".toList ++ Text.decimal limit.toNat ++ "): ".toList ++ key
  | notSupplied name => "Component source not found: ".toList ++ name

end RenderFault

end Stencil
