/-
# Escaped values and the structure of a body

What a usage puts into the slots of a body is text, and the filled body is read as markup.  This
module shows that values which are made inert cannot change the markup around them: the filled body
is read as the trees of the body with their texts and attribute values filled in place, whatever the
values are.  Only texts that have become empty are gone.

Directives are the one place where the values themselves are seen, and not their inert form: a
directive is quoted when the body is printed, and what is read of it is decoded (`Filling`).

The argument goes over the trees of the body.  A filled start tag is made of the attributes of the
start tag, each with its value filled, and these are still well written since inert values have no
quotes (`Element.Canonical.spelled_filled`).  A filled text opens no tag.  So each piece is read as
what it should be, and the trees are put together as in any other source (`Writes`).
-/
import Stencil.Proofs.Component.Filling
import Stencil.Proofs.Markup.Canonical
import Stencil.Proofs.Markup.Locality
import Stencil.Proofs.Rendering.Siblings

namespace Stencil

open Body (fill Closed Escaped)

/-! ## 1. Tags -/

section Filled

variable (resolve : Slot → Text) (values : Text → Text)

/-- The attribute with its value filled. -/
def Attribute.filled (a : Attribute) : Attribute := { a with value := fill resolve a.value }

/-- The place in a chain with the condition filled. -/
def Branch.filled : Branch → Branch
  | when condition => when (fill (Slot.given values) condition)
  | orWhen condition => orWhen (fill (Slot.given values) condition)
  | otherwise => otherwise

/-- The element with its directives filled with the values, and its attributes as `resolve` says. -/
def Element.filled (e : Element) : Element :=
  { e with
    declares := e.declares.map (fill (Slot.given values))
    branch := e.branch.map (Branch.filled values)
    attributes := e.attributes.map (Attribute.filled resolve) }

/-- What is written of an attribute, with the value filled. -/
def Written.filled : Written → Written
  | bare name => bare name
  | valued name quote value => valued name quote (fill resolve value)

end Filled

/-- All slots in the strings of the element are escaped. -/
structure Element.Escaped (e : Element) : Prop where
  declares : ∀ name, e.declares = some name → Body.Escaped name
  branch : ∀ b condition, e.branch = some b → b.condition? = some condition →
    Body.Escaped condition
  attributes : ∀ a ∈ e.attributes, Body.Escaped a.value

section Tags

variable {resolve : Slot → Text} {values : Text → Text} {w : Written} {e : Element}

theorem Written.FineName.brace_not_mem {name : Text} (h : FineName name) : '{' ∉ name :=
  fun hmem => absurd (h.2 _ hmem) (by decide)

/-- A quote ends every slot that its value may have left open. -/
theorem Written.closed_text (h : w.Fine) : Closed w.text := by
  cases w with
  | bare name =>
    refine Body.closed_of_not_mem ?_
    rw [text, List.mem_cons]
    exact not_or.mpr ⟨by decide, FineName.brace_not_mem h⟩
  | valued name quote value =>
    obtain ⟨-, hquote, -⟩ := h
    rw [text]
    refine Body.closed_concat ?_ ?_ _
    · rcases hquote with rfl | rfl <;> rfl
    · rcases hquote with rfl | rfl <;> decide

/-- An attribute is filled in its value. -/
theorem Written.fill_text (h : w.Fine) : fill resolve w.text = (w.filled resolve).text := by
  cases w with
  | bare name =>
    refine Body.fill_of_not_mem ?_
    rw [text, List.mem_cons]
    exact not_or.mpr ⟨by decide, FineName.brace_not_mem h⟩
  | valued name quote value =>
    obtain ⟨hname, hquote, -⟩ := h
    have hends : ([quote] : Text).head?.all Slot.endsSlot := by
      rcases hquote with rfl | rfl <;> rfl
    have hbefore : '{' ∉ ' ' :: name ++ ['=', quote] := by
      simp only [List.cons_append, List.mem_cons, List.mem_append, List.not_mem_nil, not_or]
      refine ⟨by decide, hname.brace_not_mem, by decide, ?_, not_false⟩
      rcases hquote with rfl | rfl <;> decide
    have hafter : '{' ∉ [quote] := by
      rcases hquote with rfl | rfl <;> decide
    have htext : ∀ value, (valued name quote value).text =
        (' ' :: name ++ ['=', quote]) ++ (value ++ [quote]) := fun value => by simp [text]
    rw [filled, htext, htext, (Body.closed_of_not_mem hbefore).fill_append,
      Body.fill_of_not_mem hbefore, Body.fill_append hends, Body.fill_of_not_mem hafter]

theorem Written.meaning_filled (w : Written) :
    (w.filled resolve).meaning = w.meaning.filled resolve := by
  cases w with
  | bare name => simp [filled, meaning, Attribute.filled, Body.fill]
  | valued name quote value => rfl

/-- What stands in a start tag is closed, and its attributes are filled one by one. -/
theorem Written.fill_flatMap {ws : List Written} (h : ∀ w ∈ ws, w.Fine) :
    fill resolve (ws.flatMap text) = (ws.map (filled resolve)).flatMap text := by
  induction ws with
  | nil => simp [Body.fill]
  | cons w ws ih =>
    obtain ⟨hw, hws⟩ := List.forall_mem_cons.mp h
    rw [List.flatMap_cons, (closed_text hw).fill_append, fill_text hw, ih hws, List.map_cons,
      List.flatMap_cons]

theorem Tag.UsualName.brace_not_mem {name : Text} (h : UsualName name) : '{' ∉ name :=
  fun hmem => absurd (h.chars _ hmem) (by decide)

theorem Element.Canonical.fill_content (h : e.Canonical) :
    fill resolve e.content = e.name ++ (e.written.map (Written.filled resolve)).flatMap
      Written.text := by
  rw [content_eq, (Body.closed_of_not_mem h.usualName.brace_not_mem).fill_append,
    Body.fill_of_not_mem h.usualName.brace_not_mem, Written.fill_flatMap h.fine_written]

/-- A tag is filled inside. -/
theorem Lexeme.fill_tag (content : Text) :
    fill resolve (tag content).written = (tag (fill resolve content)).written := by
  have hbefore : '{' ∉ ['<'] := by decide
  have hafter : '{' ∉ ['>'] := by decide
  rw [written, List.append_assoc, (Body.closed_of_not_mem hbefore).fill_append,
    Body.fill_of_not_mem hbefore, Body.fill_append rfl, Body.fill_of_not_mem hafter, written,
    List.append_assoc]

theorem Lexeme.closed_tag (content : Text) : Closed (tag content).written :=
  Body.closed_concat rfl (by decide) _

/-- The strings that are written of an element are escaped. -/
theorem Element.Escaped.written (h : e.Escaped) :
    ∀ w ∈ e.written, Body.Escaped w.meaning.value := by
  intro w hw
  have hmem := List.mem_map_of_mem (f := Written.meaning) hw
  rw [e.map_meaning_written, List.mem_append, List.mem_append] at hmem
  rcases hmem with (hmem | hmem) | hmem
  · obtain ⟨name, hname, heq⟩ := Option.map_eq_some_iff.mp (Option.mem_toList.mp hmem)
    rw [← heq]
    exact (h.declares name hname).quoted
  · obtain ⟨b, hb, heq⟩ := Option.map_eq_some_iff.mp (Option.mem_toList.mp hmem)
    rw [← heq]
    cases b with
    | otherwise =>
      intro s hs
      simp [Branch.written, Branch.condition?, Written.meaning, Body.slots] at hs
    | when condition => exact (h.branch _ condition hb rfl).quoted
    | orWhen condition => exact (h.branch _ condition hb rfl).quoted
  · exact h.attributes _ hmem

section Spelled

variable (hresolve : ∀ name, resolve (.value name false) = Text.inert (values name))

include hresolve

/-- A well-written attribute stays well written, since nothing inert ends its quotes. -/
theorem Written.fine_filled (h : w.Fine) (hescaped : Body.Escaped w.meaning.value) :
    (w.filled resolve).Fine := by
  cases w with
  | bare name => exact h
  | valued name quote value =>
    obtain ⟨hname, hquote, hvalue⟩ := h
    refine ⟨hname, hquote, Body.not_mem_fill hresolve ?_ hvalue hescaped⟩
    rcases hquote with rfl | rfl <;> decide

theorem Branch.places_filled (b : Branch)
    (hescaped : ∀ condition, b.condition? = some condition → Body.Escaped condition) :
    (b.written.meaning.filled resolve).Places (b.filled values) := by
  cases b with
  | otherwise => exact ⟨rfl, nofun⟩
  | when condition =>
    refine ⟨rfl, fun _ h => Option.some.inj h ▸ ?_⟩
    exact Body.decode_fill_quoted hresolve (hescaped condition rfl)
  | orWhen condition =>
    refine ⟨rfl, fun _ h => Option.some.inj h ▸ ?_⟩
    exact Body.decode_fill_quoted hresolve (hescaped condition rfl)

/-- **A filled start tag spells the filled element.** -/
theorem Element.Canonical.spelled_filled (h : e.Canonical) (hescaped : e.Escaped) :
    (e.filled resolve values).Spelled (e.written.map (Written.filled resolve)) := by
  have hnames : (e.filled resolve values).attributes.map Attribute.name =
      e.attributes.map Attribute.name := by
    rw [filled, List.map_map]
    rfl
  refine ⟨h.usualName, fun w hw => ?_, fun p => ?_⟩
  · obtain ⟨w', hw', rfl⟩ := List.mem_map.mp hw
    exact Written.fine_filled hresolve (h.fine_written w' hw') (hescaped.written w' hw')
  · have hmeaning : (e.written.map (Written.filled resolve)).map Written.meaning =
        (e.declares.map fun name =>
          Attribute.filled resolve ⟨declarationKeyword, Text.quoted name⟩).toList ++
        (e.branch.map fun b => b.written.meaning.filled resolve).toList ++
        (e.filled resolve values).attributes := by
      have hall : (e.written.map (Written.filled resolve)).map Written.meaning =
          (e.written.map Written.meaning).map (Attribute.filled resolve) := by
        rw [List.map_map, List.map_map]
        exact List.map_congr_left fun w _ => w.meaning_filled
      rw [hall, e.map_meaning_written, List.map_append, List.map_append]
      cases e.declares <;> cases e.branch <;> rfl
    rw [hmeaning]
    refine Tag.foldlM_parts p ?_ ?_ (fun a ha => ?_) ?_
    · have hdeclares := hescaped.declares
      rw [filled]
      cases hname : e.declares with
      | none => exact .none
      | some name =>
        exact .some ⟨rfl, Body.decode_fill_quoted hresolve (hdeclares name hname)⟩
    · have hbranch := hescaped.branch
      rw [filled]
      cases hb : e.branch with
      | none => exact .none
      | some b => exact .some (b.places_filled hresolve fun condition => hbranch b condition hb)
    · obtain ⟨a', ha', rfl⟩ := List.mem_map.mp ha
      exact (h.attributes a' ha').not_directive
    · rw [hnames]
      exact h.nodup_names

end Spelled

end Tags

/-! ## 2. Trees -/

namespace Tree

mutual

/-- The tree may stand in a body: names are of the usual characters, values and texts can be told
from markup, and all slots are escaped. -/
def IsBody : Tree → Prop
  | node (.element e) children =>
    e.Canonical ∧ e.Escaped ∧ (e.isVoid = true ∨ e.selfClosing = true → children = []) ∧
      (isRawName e.name = true → children = [] ∨ ∃ t, children = [leaf (.text t)]) ∧
      AllBody children
  | node (.text t) children => t ≠ [] ∧ '<' ∉ t ∧ Body.Escaped t ∧ children = []
  | _ => False

/-- The trees on a list may stand in a body: no two texts stand next to each other. -/
def AllBody : List Tree → Prop
  | [] => True
  | t :: rest => t.IsBody ∧ (t.IsText → ∀ s ∈ rest.head?, ¬ s.IsText) ∧ AllBody rest

end

section Filled

variable (resolve : Slot → Text) (values : Text → Text)

mutual

/-- The tree with its strings filled; nothing if it is a text that becomes empty. -/
def filled : Tree → List Tree
  | node (.element e) children =>
    [node (.element (e.filled resolve values)) (filledAll children)]
  | node (.text t) _ => ofText (fill resolve t)
  | node (.doctype t) children => [node (.doctype t) (filledAll children)]
  | node .fragment children => [node .fragment (filledAll children)]

/-- The trees on a list with their strings filled. -/
def filledAll : List Tree → List Tree
  | [] => []
  | t :: rest => t.filled ++ filledAll rest

end

end Filled

/-! ### Where trees meet -/

/-- An element is printed up to the `>` of a tag. -/
theorem closed_print_element (e : Element) (children : List Tree) :
    Closed ((node (.element e) children).print .verbatim) := by
  rw [print, Element.printAround_eq]
  split
  · exact Lexeme.closed_tag _
  · exact Lexeme.closed_tag _
  · rw [Element.endTag, Lexeme.written, ← List.append_assoc]
    exact Body.closed_concat rfl (by decide) _

/-- Behind a text no slot can go on. -/
theorem endsSlot_printAll {ts : List Tree} (h : AllBody ts) (hhead : ∀ s ∈ ts.head?, ¬ s.IsText) :
    (printAll .verbatim ts).head?.all Slot.endsSlot := by
  match ts with
  | [] => rfl
  | node (.element e) children :: ts =>
    obtain ⟨more, hprint⟩ := e.exists_printAround children.isEmpty (printAll .verbatim children)
    rw [printAll, print, hprint]
    rfl
  | node (.text t) children :: ts => exact absurd trivial (hhead _ rfl)
  | node .fragment children :: ts => exact h.1.elim
  | node (.doctype t) children :: ts => exact h.1.elim

/-- Trees are filled one by one. -/
theorem fill_printAll_cons {resolve : Slot → Text} {t : Tree} {ts : List Tree}
    (h : AllBody (t :: ts)) : fill resolve (printAll .verbatim (t :: ts)) =
      fill resolve (t.print .verbatim) ++ fill resolve (printAll .verbatim ts) := by
  obtain ⟨ht, hapart, hts⟩ := h
  rw [printAll]
  match t, ht, hapart with
  | node (.element e) children, _, _ => exact (closed_print_element e children).fill_append _
  | node (.text t) children, _, hapart =>
    exact Body.fill_append (endsSlot_printAll hts (hapart trivial)) _

/-- What stands behind a text is markup, or nothing. -/
theorem beginsMarkup_fill {resolve : Slot → Text} {ts : List Tree} (h : AllBody ts)
    (hhead : ∀ s ∈ ts.head?, ¬ s.IsText) {rest : Text}
    (hrest : rest = [] ∨ Lexeme.beginsMarkup rest = true) :
    fill resolve (printAll .verbatim ts) ++ rest = [] ∨
      Lexeme.beginsMarkup (fill resolve (printAll .verbatim ts) ++ rest) = true := by
  match ts with
  | [] => simpa [printAll, Body.fill] using hrest
  | node (.element e) children :: ts =>
    obtain ⟨more, hprint⟩ := e.exists_printAround children.isEmpty (printAll .verbatim children)
    obtain ⟨c, name, hname, halpha⟩ := h.1.1.usualName.exists_cons
    have hbefore : '{' ∉ ['<', c] := by
      simp only [List.mem_cons, List.not_mem_nil, or_false, not_or]
      exact ⟨by decide, fun heq => absurd (heq ▸ halpha) (by decide)⟩
    have hfill : fill resolve ('<' :: c :: (name ++ more)) =
        '<' :: c :: fill resolve (name ++ more) := by
      have hclosed : fill resolve (['<', c] ++ (name ++ more)) =
          fill resolve ['<', c] ++ fill resolve (name ++ more) :=
        (Body.closed_of_not_mem hbefore).fill_append _
      rwa [Body.fill_of_not_mem hbefore] at hclosed
    rw [fill_printAll_cons h, print, hprint, hname, List.cons_append, hfill]
    right
    rw [List.append_assoc, List.cons_append, List.cons_append, Lexeme.beginsMarkup_lt, halpha]
    simp
  | node (.text t) children :: ts => exact absurd trivial (hhead _ rfl)
  | node .fragment children :: ts => exact h.1.elim
  | node (.doctype t) children :: ts => exact h.1.elim

/-! ### What filled trees write -/

/-- A text without `<` is the content of a raw element up to the end tag. -/
theorem breakBefore_endTag {e : Element} {body : Text} (h : '<' ∉ body) (rest : Text) :
    Text.breakBefore (Lexeme.closesRaw e.name) (body ++ (e.endTag.written ++ rest)) =
      (body, e.endTag.written ++ rest) := by
  refine Text.breakBefore_append_eq (fun s hs hsuffix => ?_)
    (Or.inr (Lexeme.closesRaw_written e.name rest))
  refine Bool.eq_false_iff.mpr fun hcloses => ?_
  obtain ⟨u, heq, -⟩ := Lexeme.exists_of_closesRaw hcloses
  cases s with
  | nil => exact hs rfl
  | cons c s =>
    obtain rfl : c = '<' := (List.cons.inj heq).1
    exact h (hsuffix.subset List.mem_cons_self)

section Fill

variable {resolve : Slot → Text} {values : Text → Text} {e : Element}

theorem fill_startTag (h : e.Canonical) : fill resolve e.startTag.written =
    (Lexeme.tag (e.name ++ (e.written.map (Written.filled resolve)).flatMap
      Written.text)).written := by
  rw [Element.startTag, Lexeme.fill_tag, h.fill_content]

theorem fill_emptyTag (h : e.Canonical) : fill resolve e.emptyTag.written =
    (Lexeme.tag (e.name ++ ((e.written.map (Written.filled resolve)).flatMap Written.text ++
      ['/']))).written := by
  have hslash : '{' ∉ ['/'] := by decide
  rw [Element.emptyTag, Lexeme.fill_tag, Body.fill_append rfl, Body.fill_of_not_mem hslash,
    h.fill_content, List.append_assoc]

theorem fill_paired (h : e.Canonical) (inner : Text) :
    fill resolve (e.startTag.written ++ inner ++ e.endTag.written) =
      fill resolve e.startTag.written ++ fill resolve inner ++ e.endTag.written := by
  have hends : e.endTag.written.head?.all Slot.endsSlot := rfl
  have hfree : '{' ∉ e.endTag.written := by
    simp [Element.endTag, Lexeme.written, h.usualName.brace_not_mem]
  have hclosed : Closed e.startTag.written := Lexeme.closed_tag e.content
  rw [Body.fill_append hends, hclosed.fill_append, Body.fill_of_not_mem hfree]

theorem lt_not_mem_fill
    (hresolve : ∀ name, resolve (.value name false) = Text.inert (values name)) {t : Text}
    (ht : '<' ∉ t) (hescaped : Body.Escaped t) : '<' ∉ fill resolve t :=
  Body.not_mem_fill hresolve (by decide) ht hescaped

/-- The content of a raw element, filled. -/
theorem fill_rawContent
    (hresolve : ∀ name, resolve (.value name false) = Text.inert (values name))
    {children : List Tree} (hraw : children = [] ∨ ∃ t, children = [leaf (.text t)])
    (hchildren : AllBody children) :
    '<' ∉ fill resolve (printAll .verbatim children) ∧
      filledAll resolve values children = ofText (fill resolve (printAll .verbatim children)) := by
  rcases hraw with rfl | ⟨t, rfl⟩
  · exact ⟨by simp [printAll, Body.fill], by simp [printAll, Body.fill, filledAll, ofText]⟩
  · obtain ⟨⟨-, ht, hescaped, -⟩, -, -⟩ := hchildren
    have hprint : printAll .verbatim [leaf (.text t)] = t := by
      simp [printAll, leaf, print, Layout.apply]
    rw [hprint, leaf, filledAll, filledAll, filled, List.append_nil]
    exact ⟨lt_not_mem_fill hresolve ht hescaped, rfl⟩

mutual

/-- A filled tree of a body writes the tree filled. -/
theorem writes_fill
    (hresolve : ∀ name, resolve (.value name false) = Text.inert (values name)) :
    ∀ {t : Tree}, t.IsBody → ∀ {rest : Text},
    (t.IsText → rest = [] ∨ Lexeme.beginsMarkup rest = true) →
      Writes (fill resolve (t.print .verbatim)) (t.filled resolve values) rest
  | node (.element e) children, ⟨he, hescaped, hpaired, hraw, hchildren⟩, rest, _ => by
    have hspelled := he.spelled_filled hresolve hescaped
    rw [filled, print, Element.printAround_eq]
    cases hclosing : e.selfClosing with
    | true =>
      obtain rfl := hpaired (Or.inr hclosing)
      have hform : e.tagForm ([] : List Tree).isEmpty = .empty := by
        simp [Element.tagForm, hclosing]
      rw [hform, filledAll]
      dsimp only
      rw [fill_emptyTag he]
      exact .empty (hspelled.legible_emptyTag hclosing) trivial
    | false =>
      have hstart := hspelled.legible_startTag hclosing
      cases hform : e.tagForm children.isEmpty with
      | empty => exact absurd ((Element.tagForm_empty hform).2.symm.trans hclosing) nofun
      | bare =>
        obtain ⟨hempty, hvoid⟩ := Element.tagForm_bare hform
        obtain rfl := List.isEmpty_iff.mp hempty
        rw [filledAll]
        dsimp only
        rw [fill_startTag he]
        exact .bare hstart trivial hvoid
      | paired =>
        have hvoid : e.isVoid = false := by
          by_cases hempty : children = []
          · exact Element.tagForm_paired hform (List.isEmpty_iff.mpr hempty)
          · exact Bool.eq_false_iff.mpr fun hvoid => hempty (hpaired (Or.inl hvoid))
        have hend : e.endTag.Legible (.closing e.name) := he.usualName.legible_endTag rfl
        dsimp only
        rw [fill_paired he, fill_startTag he]
        cases hname : isRawName e.name with
        | true =>
          obtain ⟨hlt, hfilled⟩ := fill_rawContent hresolve (hraw hname) hchildren
          rw [hfilled]
          exact .raw hstart trivial hend trivial hvoid (beq_self_eq_true _) hname
            (breakBefore_endTag hlt rest)
        | false =>
          have hbegins := Lexeme.beginsMarkup_append (hend.beginsMarkup trivial) rest
          exact .element hstart trivial hend trivial hvoid (beq_self_eq_true _) hname
            (writesAll_fill hresolve hchildren (Or.inr hbegins))
  | node (.text t) children, ⟨_, hlt, hescaped, _⟩, rest, hrest => by
    rw [print, Layout.apply, filled]
    exact .text (Lexeme.plain_of_lt_not_mem (lt_not_mem_fill hresolve hlt hescaped))
      (hrest trivial)
  | node .fragment _, h, _, _ => h.elim
  | node (.doctype _) _, h, _, _ => h.elim

/-- **Filled trees of a body write the trees filled**, in front of markup and at the end. -/
theorem writesAll_fill
    (hresolve : ∀ name, resolve (.value name false) = Text.inert (values name)) :
    ∀ {ts : List Tree}, AllBody ts → ∀ {rest : Text},
    (rest = [] ∨ Lexeme.beginsMarkup rest = true) →
      Writes (fill resolve (printAll .verbatim ts)) (filledAll resolve values ts) rest
  | [], _, _, _ => by
    have hempty : fill resolve (printAll .verbatim []) = [] := by simp [printAll, Body.fill]
    rw [hempty, filledAll]
    exact .nil
  | t :: ts, h, rest, hrest => by
    rw [fill_printAll_cons h, filledAll]
    obtain ⟨ht, hapart, hts⟩ := h
    refine (writes_fill hresolve ht fun htext => ?_).append (writesAll_fill hresolve hts hrest)
    exact beginsMarkup_fill hts (hapart htext) hrest

end

end Fill

end Tree

/-! ## 3. What no value changes -/

/-- The directive without its condition. -/
def Branch.skeleton : Branch → Branch
  | when _ => when []
  | orWhen _ => orWhen []
  | otherwise => otherwise

/-- The element with the names of its attributes and directives, and none of their values. -/
def Element.skeleton (e : Element) : Element :=
  { e with
    declares := e.declares.map fun _ => []
    branch := e.branch.map Branch.skeleton
    attributes := e.attributes.map fun a => { a with value := [] } }

namespace Tree

mutual

/-- The elements of the tree, without the values of attributes and directives and without texts. -/
def skeleton : Tree → List Tree
  | node (.element e) children => [node (.element e.skeleton) (skeletonAll children)]
  | node (.text _) _ => []
  | node (.doctype t) children => [node (.doctype t) (skeletonAll children)]
  | node .fragment children => [node .fragment (skeletonAll children)]

/-- The elements of the trees on a list. -/
def skeletonAll : List Tree → List Tree
  | [] => []
  | t :: rest => t.skeleton ++ skeletonAll rest

end

section Skeleton

variable {resolve : Slot → Text} {values : Text → Text}

theorem skeletonAll_append (ss ts : List Tree) :
    skeletonAll (ss ++ ts) = skeletonAll ss ++ skeletonAll ts := by
  induction ss with
  | nil => rfl
  | cons s ss ih => rw [List.cons_append, skeletonAll, skeletonAll, ih, List.append_assoc]

theorem skeleton_filled_element (e : Element) :
    (e.filled resolve values).skeleton = e.skeleton := by
  have hbranch : ∀ b : Branch, (b.filled values).skeleton = b.skeleton := by
    intro b
    cases b <;> rfl
  simp [Element.filled, Element.skeleton, Function.comp_def, hbranch, Attribute.filled]

mutual

theorem skeletonAll_filled : ∀ t : Tree, skeletonAll (t.filled resolve values) = t.skeleton
  | node (.element e) children => by
    rw [filled, skeletonAll, skeletonAll, skeleton, skeleton, skeleton_filled_element,
      skeletonAll_filledAll children, List.append_nil]
  | node (.text t) children => by
    rw [filled, ofText, skeleton]
    split <;> rfl
  | node .fragment children => by
    rw [filled, skeletonAll, skeletonAll, skeleton, skeleton, skeletonAll_filledAll children,
      List.append_nil]
  | node (.doctype t) children => by
    rw [filled, skeletonAll, skeletonAll, skeleton, skeleton, skeletonAll_filledAll children,
      List.append_nil]

/-- **Filling changes no element**, and no name of an attribute or a directive. -/
theorem skeletonAll_filledAll : ∀ ts : List Tree,
    skeletonAll (filledAll resolve values ts) = skeletonAll ts
  | [] => rfl
  | t :: ts => by
    rw [filledAll, skeletonAll_append, skeletonAll_filled t, skeletonAll_filledAll ts, skeletonAll]

end

end Skeleton

end Tree

/-! ## 4. Documents -/

/-- What is read of filled trees. -/
theorem Tree.parse_fill {resolve : Slot → Text} {values : Text → Text}
    (hresolve : ∀ name, resolve (.value name false) = Text.inert (values name)) {ts : List Tree}
    (hts : AllBody ts) :
    parse (fill resolve (printAll .verbatim ts)) = .ok (filledAll resolve values ts) :=
  parse_eq_ok_iff_writes.mpr (writesAll_fill hresolve hts (Or.inl rfl))

/-- An escaped slot is filled with the value of the usage, made inert; one that it has not is
empty. -/
theorem Siblings.slotText_value (usage : Element) (children : List Tree) (name : Text) :
    slotText usage children (.value name false) = Text.inert ((usage.value? name).getD []) := by
  rw [slotText]
  cases usage.value? name <;> rfl

/-- **What a usage makes of a body with escaped slots**: the trees of the body, filled with the
values that the usage has, and with nothing for those that it has not. -/
theorem Siblings.parse_filledBody {c : Component} {ts : List Tree}
    (hbody : c.anonymous.tree Document.root = .node .fragment ts) (hts : Tree.AllBody ts)
    (usage : Element) (children : List Tree) :
    Tree.parse (filledBody usage children c) =
      .ok (Tree.filledAll (slotText usage children)
        (fun name => (usage.value? name).getD []) ts) := by
  rw [filledBody, Component.body, Document.print, hbody, Tree.print]
  exact Tree.parse_fill (slotText_value usage children) hts

namespace Document

/-- The document may be the body of a component whose slots are escaped. -/
def IsBody (d : Document) : Prop :=
  ∃ ts, d.tree root = .node .fragment ts ∧ Tree.AllBody ts

/-- **Escaped values cannot change the structure of a body.**  Whatever the values are, the filled
body is read, and what is read is the tree of the body with its strings filled: texts and attribute
values with the inert values, directives with the values themselves. -/
theorem parse_fill_of_isBody {d : Document} (hbody : d.IsBody) {resolve : Slot → Text}
    {values : Text → Text}
    (hresolve : ∀ name, resolve (.value name false) = Text.inert (values name)) :
    ∃ d', parse (fill resolve (d.print .verbatim)) = .ok d' ∧
      d'.tree root = .node .fragment (Tree.filledAll resolve values (d.tree root).children) ∧
      (d'.tree root).skeleton = (d.tree root).skeleton := by
  obtain ⟨ts, htree, hts⟩ := hbody
  have hparse := Tree.parse_fill hresolve hts
  have hprint : d.print .verbatim = Tree.printAll .verbatim ts := by
    rw [print, htree, Tree.print]
  refine ⟨ofTrees (Tree.filledAll resolve values ts), ?_, ?_, ?_⟩
  · rw [hprint, parse, hparse]
    rfl
  · rw [tree_root_ofTrees, htree, Tree.children]
  · rw [tree_root_ofTrees, htree, Tree.skeleton, Tree.skeleton, Tree.skeletonAll_filledAll]

/-- A body with a slot in a condition, one in an attribute and one in each of two texts, of which
the second stands in a raw element. -/
def bodySample : Document :=
  ofTrees
    [.node (.element ⟨['p'], none, some (.when ['{', 'a', '}']), [⟨['t'], ['{', 'b', '}']⟩], false⟩)
        [.leaf (.text ['{', 'c', '}'])],
      .node (.element ⟨"style".toList, none, none, [], false⟩)
        [.leaf (.text ['{', 'c', '}'])]]

/-- Values that would close the element, end the attribute and open another element. -/
def hostileValues : Text → Text := fun _ => "</p>\"'<b ".toList

theorem parse_fill_bodySample :
    bodySample.IsBody ∧
    (∀ name, (fun s => Text.inert (Slot.given hostileValues s)) (.value name false) =
      Text.inert (hostileValues name)) ∧
    ∃ d', parse (fill (fun s => Text.inert (Slot.given hostileValues s))
        (bodySample.print .verbatim)) = .ok d' ∧
      d'.tree root = .node .fragment
        (Tree.filledAll (fun s => Text.inert (Slot.given hostileValues s)) hostileValues
          (bodySample.tree root).children) ∧
      (d'.tree root).skeleton = (bodySample.tree root).skeleton := by
  have hslots : ∀ c ∈ ['a', 'b', 'c'],
      (Body.slots ['{', c, '}'] == [Slot.value [c] false]) = true :=
    List.all_eq_true.mp (by decide +kernel)
  have hescaped : ∀ c ∈ ['a', 'b', 'c'], Body.Escaped ['{', c, '}'] := by
    intro c hc s hs
    rw [beq_iff_eq.mp (hslots c hc)] at hs
    exact ⟨[c], List.mem_singleton.mp hs⟩
  have hp : Element.Canonical
      ⟨['p'], none, some (.when ['{', 'a', '}']), [⟨['t'], ['{', 'b', '}']⟩], false⟩ := by
    refine ⟨by decide, List.all_eq_true.mp (by decide), fun a ha => ?_, by decide⟩
    obtain rfl := List.mem_singleton.mp ha
    exact ⟨by decide, List.all_eq_true.mp (by decide), by decide, by decide⟩
  have hp' : Element.Escaped
      ⟨['p'], none, some (.when ['{', 'a', '}']), [⟨['t'], ['{', 'b', '}']⟩], false⟩ := by
    refine ⟨nofun, ?_, fun a ha => ?_⟩
    · rintro _ _ ⟨⟩ ⟨⟩
      exact hescaped 'a' (by decide)
    · obtain rfl := List.mem_singleton.mp ha
      exact hescaped 'b' (by decide)
  have hstyle : Element.Canonical ⟨"style".toList, none, none, [], false⟩ :=
    ⟨by decide, List.all_eq_true.mp (by decide), nofun, by decide⟩
  have hbody : bodySample.IsBody := by
    refine ⟨_, tree_root_ofTrees _, ⟨hp, hp', nofun, fun h => absurd h (by decide), ?_⟩, nofun,
      ⟨hstyle, ⟨nofun, nofun, nofun⟩, nofun, fun _ => Or.inr ⟨_, rfl⟩, ?_⟩, nofun, trivial⟩
    · exact ⟨⟨by decide, by decide, hescaped 'c' (by decide), rfl⟩,
        nofun, trivial⟩
    · exact ⟨⟨by decide, by decide, hescaped 'c' (by decide), rfl⟩,
        nofun, trivial⟩
  exact ⟨hbody, fun _ => rfl, parse_fill_of_isBody hbody fun _ => rfl⟩

end Document

end Stencil
