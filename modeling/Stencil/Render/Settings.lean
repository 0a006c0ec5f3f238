/-
# Settings

How deep components may be nested, and whether the white space of the result is compacted.

They are `RenderOptions`, and `Settings.layout` is `serialize_options`.
-/
import Stencil.Markup.Print

namespace Stencil

/-- The settings of a renderer. -/
structure Settings where
  /-- The greatest depth at which a component may be used. -/
  maxDepth : UInt64 := 32
  /-- White space of the result is compacted. -/
  compactWhitespace : Bool := true
  deriving DecidableEq, Repr

/-- How results are printed. -/
def Settings.layout (s : Settings) : Layout :=
  if s.compactWhitespace then .compact else .verbatim

end Stencil
