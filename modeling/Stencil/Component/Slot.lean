/-
# Slots in the body of a component

The body of a component has slots, which a usage fills: `{children}` stands for what is inside the
usage, `{name}` for the value of its attribute, and `{name!}` for that value as raw markup.  Every
other brace is text, so that style sheets and scripts need no escape.

`pieces` takes a body apart into slots and single characters; filling a body is then a map over its
pieces, and what comes from outside is never looked at again.

`fill` is `interpolate`, `Slot.read?` is `parse_token`, and `Slot.isNameChar` is `is_name_byte`.
-/
import Stencil.Text.Basic

namespace Stencil

/-- A place in a body that a usage fills. -/
inductive Slot where
  /-- The markup inside the usage. -/
  | children
  /-- The value of an attribute of the usage, as raw markup or made inert. -/
  | value (name : Text) (raw : Bool)
  deriving DecidableEq, Repr

/-- A part of a body. -/
inductive BodyPiece where
  | char (c : Char)
  | slot (s : Slot)
  deriving DecidableEq, Repr

namespace Slot

/-- The name that stands for what is inside the usage. -/
def childrenName : Text := ['c', 'h', 'i', 'l', 'd', 'r', 'e', 'n']

/-- The slot of a name. -/
def ofName (name : Text) (raw : Bool) : Slot :=
  if name = childrenName then children else value name raw

/-- The character may stand in the name of a slot. -/
def isNameChar (c : Char) : Bool :=
  c.isAlphanum || c == '_' || c == '-' || c == '.' || c == ':'

/-- The slot that follows a `{`, and what comes behind its `}`. -/
def read? (t : Text) : Option (Slot × Text) :=
  let name := t.takeWhile isNameChar
  if name = [] then none
  else
    match t.dropWhile isNameChar with
    | '!' :: '}' :: rest => some (ofName name true, rest)
    | '}' :: rest => some (ofName name false, rest)
    | _ => none

/-- What comes behind a slot is shorter. -/
theorem length_of_read? {t rest : Text} {s : Slot} (h : read? t = some (s, rest)) :
    rest.length < t.length := by
  have hdrop : (t.dropWhile isNameChar).length ≤ t.length :=
    (List.dropWhile_sublist isNameChar).length_le
  simp only [read?] at h
  split at h
  · exact absurd h (by simp)
  · split at h
    · next heq =>
      simp only [Option.some.injEq, Prod.mk.injEq] at h
      rw [heq, h.2] at hdrop
      simp only [List.length_cons] at hdrop
      omega
    · next heq =>
      simp only [Option.some.injEq, Prod.mk.injEq] at h
      rw [heq, h.2] at hdrop
      simp only [List.length_cons] at hdrop
      omega
    · exact absurd h (by simp)

end Slot

namespace Body

/-- Takes a body apart.  A brace that begins no slot is a character, and the text behind it is
looked at afresh. -/
def pieces (t : Text) : List BodyPiece :=
  match t with
  | [] => []
  | c :: rest =>
    if c = '{' then
      match _hread : Slot.read? rest with
      | some (s, rest') => .slot s :: pieces rest'
      | none => .char c :: pieces rest
    else .char c :: pieces rest
termination_by t.length
decreasing_by
  · have := Slot.length_of_read? _hread
    simp only [List.length_cons]
    omega
  · simp
  · simp

/-- The slots of a body, in order. -/
def slots (t : Text) : List Slot :=
  (pieces t).filterMap fun
    | .char _ => none
    | .slot s => some s

/-- A piece with its slot filled. -/
def fillPiece (resolve : Slot → Text) : BodyPiece → Text
  | .char c => [c]
  | .slot s => resolve s

/-- **The body with every slot filled.** -/
def fill (resolve : Slot → Text) (t : Text) : Text := (pieces t).flatMap (fillPiece resolve)

end Body

end Stencil
