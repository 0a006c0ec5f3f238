/-
# Engines

An engine is a library of components with settings.  Components are registered first; then templates
are rendered, which leaves the engine as it is.

`register` is `register_component`, `rendered` is `render_document` where no component is open, and
`registerAll` is `register_from`, which keeps what it has registered when it comes to a name that
fails.
-/
import Stencil.Render.Visit

namespace Stencil

/-- A library of components and the settings to render with. -/
structure Engine where
  library : Library := .empty
  settings : Settings := {}
  deriving DecidableEq, Repr

namespace Engine

/-- Registers all components that a source declares, and counts them. -/
def register (e : Engine) (source : Text) : Except RenderFault (Engine × Nat) :=
  match e.library.register source with
  | .error fault => .error (.markup fault)
  | .ok (library, count) => .ok ({ e with library := library }, count)

/-- Registers what a supply has under the given names, one after the other, up to the first name
that fails.  What was registered before it stays. -/
def registerAll (e : Engine) (supply : Supply) : List Text → Engine × Except RenderFault Nat
  | [] => (e, .ok 0)
  | name :: rest =>
    match supply name with
    | none => (e, .error (.notSupplied name))
    | some source =>
      match e.register source with
      | .error fault => (e, .error fault)
      | .ok (e', count) =>
        let r := e'.registerAll supply rest
        (r.1, r.2.map (count + ·))

/-- The rendered document of a template. -/
def rendered (e : Engine) (template : Text) : Except RenderFault Document :=
  Render.renderSource e.library e.settings.maxDepth e.settings.maxDepth.toNat template

/-- **The markup that a template renders to.** -/
def render (e : Engine) (template : Text) : Except RenderFault Text :=
  (e.rendered template).map (·.print e.settings.layout)

end Engine

end Stencil
