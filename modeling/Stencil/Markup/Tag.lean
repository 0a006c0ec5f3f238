/-
# Inside a tag

What stands between `<` and `>` is the content of a tag: a name up to the first blank, then
attributes.  An attribute is a name alone, or a name, `=` and a value that is quoted or ends at the
next blank.  Nothing is refused but a value that is missing (`a=`) or whose quote stays open, so
that names and bare values may hold any other character.

`Tag.attributes` reads the attributes up to the first fault.  `Tag.element` takes the directives out
of them, in order; a conflict of two directives therefore comes before a fault further right.

So `Tag.element` is `build_element`, and `attach` is what `add_attribute` does with one attribute.
`attributes` stands for the iteration over `html_attributes`, which is not checked for names that
occur twice.
-/
import Stencil.Text.Blank
import Stencil.Markup.Element
import Stencil.Markup.Fault

namespace Stencil.Tag

open Text (isTagBlank)

/-! ## 1. One attribute -/

/-- The character goes on with the name of an attribute: it is neither `=` nor blank. -/
def continuesName (c : Char) : Bool := c != '=' && !isTagBlank c

/-- Reads the value after `=`, in a tag whose content has `length` bytes: its text and what
follows it. -/
def readValue (length : Nat) (t : Text) : Except Malformation (Text × Text) :=
  match t.dropWhile isTagBlank with
  | [] => .error (.valueMissing length)
  | c :: rest =>
    if c = '"' ∨ c = '\'' then
      match rest.dropWhile (· != c) with
      | [] => .error (.quoteUnclosed length c)
      | _ :: tail => .ok (rest.takeWhile (· != c), tail)
    else .ok (c :: rest.takeWhile (!isTagBlank ·), rest.dropWhile (!isTagBlank ·))

/-- Reads the attribute whose name begins with `first`, whatever that is, and goes on with `t`. -/
def readAttribute (length : Nat) (first : Char) (t : Text) :
    Except Malformation (Attribute × Text) :=
  let name := first :: t.takeWhile continuesName
  match (t.dropWhile continuesName).dropWhile isTagBlank with
  | '=' :: value => (readValue length value).map fun (text, rest) => (⟨name, text⟩, rest)
  | rest => .ok (⟨name, []⟩, rest)

private theorem length_dropWhile_le (p : Char → Bool) (t : Text) :
    (t.dropWhile p).length ≤ t.length :=
  (List.dropWhile_sublist p).length_le

/-- What follows a value is shorter than what it was read from. -/
theorem readValue_length {length : Nat} {t value rest : Text}
    (h : readValue length t = .ok (value, rest)) : rest.length < t.length := by
  have hblank := length_dropWhile_le isTagBlank t
  unfold readValue at h
  split at h
  · exact absurd h (by simp)
  · next c tail heq =>
    rw [heq, List.length_cons] at hblank
    split at h
    · have hquote := length_dropWhile_le (· != c) tail
      split at h
      · exact absurd h (by simp)
      · next heq' =>
        simp only [Except.ok.injEq, Prod.mk.injEq] at h
        rw [heq', List.length_cons, h.2] at hquote
        omega
    · simp only [Except.ok.injEq, Prod.mk.injEq] at h
      have hbare := length_dropWhile_le (!isTagBlank ·) tail
      rw [h.2] at hbare
      omega

/-- What follows an attribute is no longer than what followed its first character. -/
theorem readAttribute_length {length : Nat} {first : Char} {t rest : Text} {a : Attribute}
    (h : readAttribute length first t = .ok (a, rest)) : rest.length ≤ t.length := by
  have hname := length_dropWhile_le continuesName t
  have hblank := length_dropWhile_le isTagBlank (t.dropWhile continuesName)
  simp only [readAttribute] at h
  split at h
  · next value heq =>
    rw [heq, List.length_cons] at hblank
    cases hv : readValue length value with
    | error fault => rw [hv] at h; exact absurd h (by simp [Except.map])
    | ok r =>
      obtain ⟨text, tail⟩ := r
      have hvalue := readValue_length hv
      rw [hv] at h
      simp only [Except.map, Except.ok.injEq, Prod.mk.injEq] at h
      rw [h.2] at hvalue
      omega
  · simp only [Except.ok.injEq, Prod.mk.injEq] at h
    rw [h.2] at hblank
    omega

/-! ## 2. All attributes -/

/-- The attributes of a tag whose content has `length` bytes, up to the first fault, and that
fault. -/
def attributes (length : Nat) (t : Text) : List Attribute × Option Malformation :=
  match _h : t.dropWhile isTagBlank with
  | [] => ([], none)
  | first :: more =>
    match _hread : readAttribute length first more with
    | .error fault => ([], some fault)
    | .ok (a, rest) =>
      let r := attributes length rest
      (a :: r.1, r.2)
termination_by t.length
decreasing_by
  have hblank := length_dropWhile_le isTagBlank t
  have hrest := readAttribute_length _hread
  rw [_h, List.length_cons] at hblank
  omega

/-! ## 3. The element of a tag -/

/-- The name with which the content of a tag begins. -/
def name (content : Text) : Text := content.takeWhile (!isTagBlank ·)

/-- Gives an element one more attribute of the tag at `position`.  A directive is taken out of the
attributes; a second place in a chain of alternatives is refused. -/
def attach (position : Nat) (e : Element) (a : Attribute) : Except MarkupFault Element :=
  if a.name = declarationKeyword then .ok { e with declares := some a.decoded }
  else
    match Branch.ofAttribute? a, e.branch with
    | none, _ => .ok (e.withAttribute a.name a.value)
    | some branch, none => .ok { e with branch := some branch }
    | some branch, some first =>
      .error (.conflicting e.name first.keyword branch.keyword position)

/-- The element that the content of a start tag at `position` writes. -/
def element (position : Nat) (selfClosing : Bool) (content : Text) :
    Except MarkupFault Element := do
  let found := attributes (Text.byteLength content) (content.dropWhile (!isTagBlank ·))
  let bare : Element := { name := name content, selfClosing := selfClosing }
  let e ← found.1.foldlM (attach position) bare
  match found.2 with
  | none => .ok e
  | some fault => .error (.malformed fault position)

end Stencil.Tag
