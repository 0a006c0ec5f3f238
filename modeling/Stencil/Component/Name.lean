/-
# Names and keys of components

A component may be declared under any spelling of its name: `app-button`, `app_button` and
`App Button` mean one component, which is used as `AppButton`.  `key` makes this one spelling.

A name is taken apart into its words, the runs of ASCII letters and digits.  A name of several words
has each of them capitalised; a name that is one word keeps its inner capitals, since they are all
that tells its parts (`appButton`).

`key` is `component_key`; its two cases are `push_with_first_upper` (`withCapital`) and
`push_capitalized` (`capitalised`).
-/
import Stencil.Text.Basic

namespace Stencil.ComponentName

/-- The runs between the characters that are no ASCII letters or digits; some may be empty. -/
def runs : Text → List Text
  | [] => [[]]
  | c :: t => if c.isAlphanum then (runs t).modifyHead (c :: ·) else [] :: runs t

/-- The words of a name. -/
def words (name : Text) : List Text := (runs name).filter (· != [])

/-- The word with a capital in front and its other letters kept. -/
def withCapital : Text → Text
  | [] => []
  | c :: t => c.toUpper :: t

/-- The word with a capital in front and its other letters small. -/
def capitalised : Text → Text
  | [] => []
  | c :: t => c.toUpper :: t.map Char.toLower

/-- **The key of a name**: the tag under which the component is used. -/
def key (name : Text) : Text :=
  match words name with
  | [word] => withCapital word
  | several => several.flatMap capitalised

end Stencil.ComponentName
