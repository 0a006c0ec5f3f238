/-
# Reading a source piece by piece

A reading is what could be made of a source: pieces with their byte offsets, in order, up to the
first fault.  It keeps what was read before a fault, because a fault of another kind may lie further
left: which one is reported is decided by the order in the source alone.

`Lexeme.scan` reads lexemes.  The one thing it must look at is the name of a start tag: the content
of a raw element is no markup and is taken whole, up to the element's end tag.

`Lexeme.scan` is the loop of the parser without what it builds.  `closesRaw` is the test of
`find_end_tag`, and the search for it is `read_raw_text`; both are done here and not with the
tokens, since they decide where the next piece begins.
-/
import Stencil.Markup.Lexeme

namespace Stencil

/-- Pieces with their byte offsets, and the fault that ended the reading, if one did. -/
structure Reading (α : Type) where
  items : List (Nat × α)
  fault : Option MarkupFault

namespace Reading

variable {α β : Type}

/-- The reading of nothing. -/
def done : Reading α := ⟨[], none⟩

/-- The reading that ends at once. -/
def failed (fault : MarkupFault) : Reading α := ⟨[], some fault⟩

/-- Puts a piece in front. -/
def cons (position : Nat) (item : α) (r : Reading α) : Reading α :=
  ⟨(position, item) :: r.items, r.fault⟩

/-- Makes something of each piece on a list.  The first that is faulty ends the reading; if none is,
`fault` does. -/
def interpretAll (f : Nat → α → Except MarkupFault β) (fault : Option MarkupFault) :
    List (Nat × α) → Reading β
  | [] => ⟨[], fault⟩
  | (position, item) :: rest =>
    match f position item with
    | .ok meaning => (interpretAll f fault rest).cons position meaning
    | .error found => failed found

/-- **Makes something of each piece.**  A fault found in doing so lies further left than the one
that ended the reading, and takes its place. -/
def interpret (f : Nat → α → Except MarkupFault β) (r : Reading α) : Reading β :=
  interpretAll f r.fault r.items

end Reading

namespace Lexeme

/-! ## 1. Raw elements -/

/-- The name of the raw element that a start tag opens. -/
def rawName? : Lexeme → Option Text
  | tag content =>
    if content.head? = some '/' ∨ content.getLast? = some '/' then none
    else if isRawName (Tag.name content) then some (Tag.name content)
    else none
  | _ => none

/-- The character ends the name in the end tag of a raw element. -/
def endsRawName (c : Char) : Bool := c == '>' || c == '/' || Text.isAsciiBlank c

/-- The text begins with the end tag of the raw element of the given name. -/
def closesRaw (name : Text) : Text → Bool
  | '<' :: '/' :: t =>
    Text.sameFold (t.take name.length) name && (t.drop name.length).head?.all endsRawName
  | _ => false

/-! ## 2. All lexemes -/

/-- The lexemes of a source that begins at `position`. -/
def scan (position : Nat) (t : Text) : Reading Lexeme :=
  if _hne : t = [] then .done
  else
    match _hcut : cut t with
    | .error cause => .failed (.malformed cause position)
    | .ok (l, rest) =>
      let next := position + Text.byteLength l.written
      match l.rawName? with
      | none => (scan next rest).cons position l
      | some name =>
        let body := (Text.breakBefore (closesRaw name) rest).1
        let tail := (Text.breakBefore (closesRaw name) rest).2
        if tail = [] then .cons position l (.failed (.unclosed name position))
        else if body = [] then (scan next tail).cons position l
        else
          .cons position l (.cons next (raw body) (scan (next + Text.byteLength body) tail))
termination_by t.length
decreasing_by
  · exact length_of_cut _hne _hcut
  · exact Nat.lt_of_le_of_lt (Text.length_breakBefore_le _ rest) (length_of_cut _hne _hcut)
  · exact Nat.lt_of_le_of_lt (Text.length_breakBefore_le _ rest) (length_of_cut _hne _hcut)

end Lexeme

end Stencil
