/-
# Components that wrap their children

The component `<x @name="N">{children}</x>` does nothing but put its children into an element `x`.
So its usage around some markup should render like the element around this markup.  Whether it does
is a question of what the tags of the key are read as, and nothing else.

If the key can be used (`ComponentName.Usable`), the tags of the key are read around any markup like
the tags of an element, the children are printed as they were written, and the filled body is the
element around them.  If the key cannot be used there is markup that tells the two apart:

* a key that begins with a digit opens no tag, and what was meant as a usage is text;
* the tag of a void name is the whole usage, so that the markup is left behind it and not inside;
* a raw element ends at the first end tag with its name in any case, even if it is the end tag of
  an element inside.
-/
import Stencil.Proofs.Component.Definitions
import Stencil.Proofs.Component.Escaping
import Stencil.Proofs.Rendering.NormalForm

namespace Stencil

open Stencil.Tree (leaf printAll EachAll)

/-! ## 1. Tags around markup -/

/-- The tags of a name around a source. -/
def wrapped (name inner : Text) : Text :=
  '<' :: name ++ '>' :: inner ++ '<' :: '/' :: name ++ ['>']

/-- The element of a name, with nothing else in its tag. -/
def Element.named (name : Text) : Element := { name := name }

/-- A key that begins with a letter is a usual name. -/
theorem Tag.usualName_key {name : Text}
    (halpha : (ComponentName.key name).head?.any Char.isAlpha = true) :
    UsualName (ComponentName.key name) := by
  refine ⟨halpha, fun c hc => ?_⟩
  rw [isNameChar, ComponentName.isAlphanum_of_mem_key hc]
  rfl

/-- A text that neither begins nor ends with white space is printed as it is. -/
theorem Layout.apply_enclosed (layout : Layout) {c c' : Char} (hc : Text.isBlank c = false)
    (hc' : Text.isBlank c' = false) (t : Text) :
    layout.apply (c :: t ++ [c']) = c :: t ++ [c'] := by
  cases layout with
  | verbatim => rfl
  | compact =>
    have htrim : Text.trim (c :: t ++ [c']) = c :: t ++ [c'] := by
      simp [Text.trim, Text.dropEndWhile, hc, hc']
    rw [Layout.apply, Layout.compacted, htrim]
    simp [hc, hc', Layout.spaceFor]

section Wrapped

variable {name inner : Text} {ts : List Tree}

theorem wrapped_eq (name inner : Text) : wrapped name inner =
    (Element.named name).startTag.written ++ inner ++ (Element.named name).endTag.written := by
  simp [wrapped, Element.named, Element.startTag, Element.endTag, Element.content, Lexeme.written]

theorem Element.canonical_named (hname : Tag.UsualName name) : (Element.named name).Canonical :=
  ⟨hname.alpha, hname.chars, nofun, List.nodup_nil⟩

/-- An element that is not void is printed as its tags around its children. -/
theorem Element.printAll_named (hvoid : isVoidName name = false) (layout : Layout)
    (ts : List Tree) :
    printAll layout [.node (.element (.named name)) ts] = wrapped name (printAll layout ts) := by
  have hvoid : Element.isVoid { name := name } = false := hvoid
  simp [printAll, Tree.print, Element.printAround, Element.printOpening, Element.printClosing,
    Element.named, wrapped, hvoid]

/-- Trees in as many elements of a name, one in the other. -/
def Tree.nested (name : Text) : Nat → List Tree → List Tree
  | 0, ts => ts
  | n + 1, ts => [node (.element (.named name)) (nested name n ts)]

/-- The tags of the elements are printed around the trees. -/
theorem Tree.printAll_nested (hvoid : isVoidName name = false) (layout : Layout) (n : Nat)
    (ts : List Tree) : printAll layout (nested name n ts) =
      (List.replicate n ('<' :: name ++ ['>'])).flatten ++ printAll layout ts ++
        (List.replicate n ('<' :: '/' :: name ++ ['>'])).flatten := by
  induction n with
  | zero => simp [nested]
  | succ n ih =>
    have hclosing : (List.replicate (n + 1) ('<' :: '/' :: name ++ ['>'])).flatten =
        (List.replicate n ('<' :: '/' :: name ++ ['>'])).flatten ++
          ('<' :: '/' :: name ++ ['>']) := by
      rw [List.replicate_succ', List.flatten_append, List.flatten_singleton]
    rw [nested, Element.printAll_named hvoid, ih, List.replicate_succ, List.flatten_cons, hclosing]
    simp [wrapped]

/-- **Tags with a usual name are read as an element** around what the source is read as. -/
theorem Tree.parse_wrapped (hname : Tag.UsualName name) (hvoid : isVoidName name = false)
    (hraw : isRawName name = false) (hinner : parse inner = .ok ts) :
    parse (wrapped name inner) = .ok [node (.element (.named name)) ts] := by
  have hend : (Element.named name).endTag.Legible (.closing name) := hname.legible_endTag rfl
  rw [parse_eq_ok_iff_writes] at hinner ⊢
  rw [wrapped_eq]
  refine .element ((Element.canonical_named hname).legible_startTag rfl) trivial hend trivial hvoid
    (beq_self_eq_true _) hraw (hinner.in_front (Or.inr ?_))
  rw [List.append_nil]
  exact hend.beginsMarkup trivial

/-- In a raw element the source is a text, as long as it does not hold the end tag. -/
theorem Tree.parse_wrapped_raw (hname : Tag.UsualName name) (hraw : isRawName name = true)
    (hinner : Lexeme.HoldsNoEnd name inner) :
    parse (wrapped name inner) = .ok [node (.element (.named name)) (ofText inner)] := by
  have hend : (Element.named name).endTag.Legible (.closing name) := hname.legible_endTag rfl
  have hbody := Lexeme.breakBefore_holdsNoEnd (e := .named name) hname.lt_not_mem hinner
  rw [parse_eq_ok_iff_writes, wrapped_eq]
  refine .raw ((Element.canonical_named hname).legible_startTag rfl) trivial hend trivial
    (isVoidName_of_isRawName hraw) (beq_self_eq_true _) hraw ?_
  rwa [List.append_nil]

/-- The tags of a void name do not hold the source: it is read behind the element. -/
theorem Tree.parse_wrapped_void (hname : Tag.UsualName name) (hvoid : isVoidName name = true)
    (hinner : parse inner = .ok ts) :
    parse (wrapped name inner) = .ok (leaf (.element (.named name)) :: ts) := by
  have hend : (Element.named name).endTag.Legible (.closing name) := hname.legible_endTag rfl
  have hstart := (Element.canonical_named hname).legible_startTag rfl
  have hclosing : Writes (Element.named name).endTag.written [] [] :=
    .legible hend trivial (Lexeme.rawName?_of_closing hend.2) (if_pos hvoid)
  rw [parse_eq_ok_iff_writes] at hinner ⊢
  rw [wrapped_eq, ← List.append_nil ts, ← List.singleton_append]
  refine ((Writes.bare hstart trivial hvoid).append (hinner.in_front (Or.inr ?_))).append hclosing
  rw [List.append_nil]
  exact hend.beginsMarkup trivial

/-- A raw element ends at the end tag of an element inside that has its name in another case, and
then its own end tag closes nothing. -/
theorem Tree.parse_wrapped_inside {r : Text} (hraw : isRawName name = true)
    (hsame : Text.sameFold name r = true) :
    ∃ p, parse (wrapped name (wrapped r [])) = .error (.unexpectedEnd name p) := by
  have hname := Tag.usualName_of_isRawName hraw
  have hvoid := isVoidName_of_isRawName hraw
  have husual := Tag.usualName_of_isRawName ((Token.isRawName_of_sameFold hsame).trans hraw)
  have hend : (Element.named name).endTag.Legible (.closing name) := hname.legible_endTag rfl
  have hinner : (Element.named r).endTag.Legible (.closing r) := husual.legible_endTag rfl
  -- up to the end tag of the element inside, this is a whole element
  have hread : parse ((Element.named name).startTag.written ++ ('<' :: r ++ ['>']) ++
      (Element.named r).endTag.written) =
        .ok [node (.element (.named name)) (ofText ('<' :: r ++ ['>']))] := by
    have hslash : '/' ∉ r := fun hmem => absurd (husual.chars _ hmem) (by decide)
    have hfree : '/' ∉ '<' :: r ++ ['>'] := by simp [hslash]
    have hbody := Lexeme.breakBefore_holdsNoEnd (e := .named r) husual.lt_not_mem
      (Lexeme.holdsNoEnd_of_not_mem hfree r)
    rw [parse_eq_ok_iff_writes]
    refine .raw ((Element.canonical_named hname).legible_startTag rfl) trivial hinner trivial
      hvoid hsame hraw ?_
    change Text.breakBefore (Lexeme.closesRaw name) _ = _
    rw [Lexeme.closesRaw_of_sameFold hsame, List.append_nil]
    exact hbody
  obtain ⟨p, hfault⟩ := parse_append_closing hread hend trivial hvoid
  refine ⟨p, ?_⟩
  rw [← hfault, wrapped_eq, wrapped_eq]
  simp [Element.startTag, Element.named, Element.content, Lexeme.written]

/-- Tags with a name that begins with a digit are text. -/
theorem Tree.parse_wrapped_digit {d : Char} {more : Text} (hdigit : d.isAlpha = false)
    (hchars : ∀ c ∈ d :: more, c.isAlphanum = true) :
    parse (wrapped (d :: more) []) = .ok [leaf (.text (wrapped (d :: more) []))] := by
  have hfree : '<' ∉ d :: more ++ ['>'] := by
    have hname : '<' ∉ d :: more := fun hmem => absurd (hchars _ hmem) (by decide)
    simpa using hname
  have hne : ∀ c : Char, c.isAlphanum = false → (d == c) = false := by
    refine fun c hc => beq_eq_false_iff_ne.mpr ?_
    rintro rfl
    exact absurd (hc.symm.trans (hchars _ List.mem_cons_self)) nofun
  -- neither of the two `<` has a letter behind it, and nothing else opens a tag
  have hclose : Lexeme.Plain ('<' :: '/' :: (d :: more ++ ['>'])) := by
    refine .cons ?_ (.cons rfl (Lexeme.plain_of_lt_not_mem hfree))
    rw [Lexeme.beginsMarkup_lt, List.cons_append, List.head?_cons, Option.any_some, hdigit]
    rfl
  have hplain : Lexeme.Plain ('<' :: (d :: more ++ ['>'] ++
      '<' :: '/' :: (d :: more ++ ['>']))) := by
    refine (hclose.append hfree).cons ?_
    rw [List.cons_append, List.cons_append, Lexeme.beginsMarkup_lt, hdigit, hne '!' (by decide),
      hne '?' (by decide), hne '/' (by decide)]
    rfl
  have heq : wrapped (d :: more) [] =
      '<' :: (d :: more ++ ['>'] ++ '<' :: '/' :: (d :: more ++ ['>'])) := by simp [wrapped]
  rw [heq, parse_plain hplain]
  rfl

end Wrapped

/-! ## 2. Declarations -/

/-- The tags of an element that declares a component, around a source. -/
def declaration (tag name inner : Text) : Text :=
  '<' :: tag ++ printDirective declarationKeyword name ++ '>' :: inner ++
    '<' :: '/' :: tag ++ ['>']

/-- An element that declares a component, around trees. -/
def Tree.declaringAll (tag name : Text) (children : List Tree) : Tree :=
  node (.element { name := tag, declares := some name }) children

/-- An element that declares a component and has one node in it. -/
def Tree.declaring (tag name : Text) (child : NodeKind) : Tree :=
  node (.element { name := tag, declares := some name }) [leaf child]

theorem Tree.declaring_eq (tag name : Text) (child : NodeKind) :
    declaring tag name child = declaringAll tag name [leaf child] := rfl

/-- A text without `<` is canonical. -/
theorem Tree.canonicalAll_text {t : Text} (hne : t ≠ []) (hlt : '<' ∉ t) :
    CanonicalAll [leaf (.text t)] :=
  ⟨⟨hne, Lexeme.plain_of_lt_not_mem hlt, rfl⟩, nofun, trivial⟩

section Declaring

variable {tag : Text} (name : Text) {children : List Tree}

theorem Tree.canonicalAll_declaring (htag : Tag.UsualName tag) (hvoid : isVoidName tag = false)
    (hraw : isRawName tag = false) (hchildren : CanonicalAll children) :
    CanonicalAll [declaringAll tag name children] := by
  have helement : Element.Canonical { name := tag, declares := some name } :=
    ⟨htag.alpha, htag.chars, nofun, List.nodup_nil⟩
  refine ⟨⟨helement, fun h => absurd h ?_, ?_⟩, nofun, trivial⟩
  · simp [Element.isVoid, hvoid]
  · rwa [if_neg (by simp [hraw])]

theorem Tree.printAll_declaring (hvoid : isVoidName tag = false) :
    printAll .verbatim [declaringAll tag name children] =
      declaration tag name (printAll .verbatim children) := by
  have hvoid : Element.isVoid { name := tag, declares := some name } = false := hvoid
  simp [declaringAll, declaration, printAll, print, Element.printAround, Element.printOpening,
    Element.printClosing, hvoid]

/-- **A declaration is read** as the tree that it is printed from. -/
theorem Tree.parse_declaration (htag : Tag.UsualName tag) (hvoid : isVoidName tag = false)
    (hraw : isRawName tag = false) (hchildren : CanonicalAll children) :
    parse (declaration tag name (printAll .verbatim children)) =
      .ok [declaringAll tag name children] := by
  have hcanonical := canonicalAll_declaring name htag hvoid hraw hchildren
  rw [← printAll_declaring name hvoid]
  exact parse_legible (shapedAll_of_canonical hcanonical) (legibleAll_of_canonical hcanonical)

/-- It declares one component, if it has a key and nothing is declared in it. -/
theorem Tree.declarations_declaring (tag : Text) {name : Text} (hkey : ComponentName.key name ≠ [])
    (hchildren : declarations children = []) :
    declarations [declaringAll tag name children] = [(name, declaringAll tag name children)] := by
  have hsubtrees : subtreesAll [declaringAll tag name children] =
      declaringAll tag name children :: subtreesAll children := by
    rw [declaringAll, subtreesAll_cons, subtrees_node, subtreesAll_nil, List.append_nil]
  have hdeclared : (declaringAll tag name children).declared? = some name := by
    simp [declared?, declaringAll, kind, NodeKind.element?, hkey]
  rw [declarations, hsubtrees, List.filterMap_cons, hdeclared, Option.map_some, ← declarations,
    hchildren]

theorem Library.declarationsOf_declaration (htag : Tag.UsualName tag)
    (hvoid : isVoidName tag = false) (hraw : isRawName tag = false) {name : Text}
    (hkey : ComponentName.key name ≠ []) (hchildren : Tree.CanonicalAll children)
    (hdeclared : Tree.declarations children = []) :
    declarationsOf (declaration tag name (printAll .verbatim children)) =
      [(name, .declaringAll tag name children)] := by
  rw [declarationsOf, Tree.parse_declaration name htag hvoid hraw hchildren]
  exact Tree.declarations_declaring tag hkey hdeclared

/-- **The body of the component** is the element without its declaration. -/
theorem Component.body_declaring (hvoid : isVoidName tag = false) :
    (ofDeclaration (name, .declaringAll tag name children)).body =
      wrapped tag (printAll .verbatim children) := by
  have htree : (ofDeclaration (name, .declaringAll tag name children)).anonymous.tree
      Document.root = .node .fragment [.node (.element (.named tag)) children] := tree_anonymous _
  rw [body, Document.print, htree, Tree.print, Element.printAll_named hvoid]

end Declaring

/-! ## 3. The component -/

/-- What it takes to declare the component: a name of letters, digits, `_` and `-` that has a key,
and an element with a name in small letters that may hold any markup. -/
structure Wrapper where
  name : Text
  tag : Text
  name_chars : ∀ c ∈ name, (c.isAlphanum || c == '_' || c == '-') = true
  key_ne_nil : ComponentName.key name ≠ []
  tag_ne_nil : tag ≠ []
  tag_lower : ∀ c ∈ tag, c.isLower = true
  tag_not_void : isVoidName tag = false
  tag_not_raw : isRawName tag = false

namespace Wrapper

variable (w : Wrapper)

/-- The tag under which the component is used. -/
def key : Text := ComponentName.key w.name

/-- The one thing in the element. -/
def slot : Text := '{' :: Slot.childrenName ++ ['}']

/-- The declaration as it is written. -/
def source : Text :=
  '<' :: w.tag ++ ' ' :: declarationKeyword ++ '=' :: '"' :: w.name ++ '"' :: '>' :: slot ++
    '<' :: '/' :: w.tag ++ ['>']

/-- The declaration as a tree. -/
def definition : Tree :=
  .node (.element { name := w.tag, declares := some w.name }) [leaf (.text slot)]

/-- The component that is declared. -/
def component : Component := ⟨w.key, w.name, .ofTrees [w.definition]⟩

/-- The library that has the component and nothing else. -/
def library : Library := ⟨[(w.key, w.component)]⟩

/-- The engine that has the component and nothing else. -/
def engine (settings : Settings) : Engine := ⟨w.library, settings⟩

theorem usualName_tag : Tag.UsualName w.tag := by
  have hletter : ∀ c ∈ w.tag, c.isAlpha = true := fun c hc => by
    rw [Char.isAlpha, w.tag_lower c hc, Bool.or_true]
  refine ⟨?_, fun c hc => ?_⟩
  · obtain ⟨c, more, htag⟩ := List.exists_cons_of_ne_nil w.tag_ne_nil
    rw [htag]
    exact hletter c (htag ▸ List.mem_cons_self)
  · rw [Tag.isNameChar, Char.isAlphanum, hletter c hc]
    rfl

/-- The name stands in quotes as it is. -/
theorem quoted_name : Text.quoted w.name = w.name := by
  have hchar : ∀ c ∈ w.name, Text.quotedChar c = [c] := by
    intro c hc
    have hne : ∀ d : Char, (d.isAlphanum || d == '_' || d == '-') = false → c ≠ d := by
      rintro d hd rfl
      cases (w.name_chars c hc).symm.trans hd
    rw [Text.quotedChar, if_neg (hne _ (by decide)), if_neg (hne _ (by decide)),
      if_neg (hne _ (by decide)), if_neg (hne _ (by decide)), if_neg (hne _ (by decide))]
  rw [Text.quoted, List.flatMap_congr hchar]
  exact List.flatMap_singleton' w.name

theorem printAll_slot : printAll .verbatim [leaf (.text slot)] = slot := by decide

theorem source_eq : w.source = declaration w.tag w.name slot := by
  simp [source, declaration, printDirective, quoted_name]

theorem parse_source : Tree.parse w.source = .ok [w.definition] := by
  rw [source_eq, ← printAll_slot]
  exact Tree.parse_declaration w.name w.usualName_tag w.tag_not_void w.tag_not_raw
    (Tree.canonicalAll_text nofun (by decide))

theorem declaredIn_definition :
    Component.declaredIn (.ofTrees [w.definition]) = [w.component] := by
  have hone : Tree.declarations [w.definition] = [(w.name, w.definition)] :=
    Tree.declarations_declaring w.tag w.key_ne_nil rfl
  rw [Component.declaredIn_ofTrees, hone]
  rfl

/-- **Registering the declaration** on a new engine adds the one component. -/
theorem register_source (settings : Settings) :
    Engine.register ⟨.empty, settings⟩ w.source = .ok (w.engine settings, 1) := by
  rw [Engine.register, Library.register, Document.parse, parse_source]
  simp only [Except.map, declaredIn_definition]
  rfl

theorem body_component : w.component.body = wrapped w.tag slot := by
  rw [← printAll_slot]
  exact Component.body_declaring w.name w.tag_not_void

/-- **The filled body is the tags around the children**, as they are printed. -/
theorem filledBody_component (e : Element) (children : List Tree) :
    Siblings.filledBody e children w.component = wrapped w.tag (printAll .verbatim children) := by
  have hname := Element.canonical_named w.usualName_tag
  have hstart : '{' ∉ (Element.named w.tag).startTag.written := by
    simp [Element.startTag, Element.content, Element.named, Lexeme.written,
      w.usualName_tag.brace_not_mem]
  have hread : Slot.read? (Slot.childrenName ++ ['}']) = some (.children, []) := by decide
  have hslot : Body.fill (Siblings.slotText e children) slot = printAll .verbatim children := by
    rw [Body.fill, slot, List.cons_append, Body.pieces_of_some hread, Body.pieces_nil]
    exact List.append_nil _
  rw [Siblings.filledBody, body_component, wrapped_eq, wrapped_eq, Tree.fill_paired hname,
    Body.fill_of_not_mem hstart, hslot]

/-! ## 4. Usages and elements -/

theorem lookup_key : w.library.lookup w.key = some w.component := by
  simp [library, Library.lookup]

theorem lookup_eq_none_iff {name : Text} : w.library.lookup name = none ↔ name ≠ w.key := by
  simp [library, Library.lookup]

theorem lookup_tag : w.library.lookup (Element.named w.tag).name = none :=
  w.lookup_eq_none_iff.mpr (ComponentName.key_ne_of_isLower w.tag_ne_nil w.tag_lower).symm

/-- The tag is read as an element around any source. -/
theorem parse_wrapped_tag {source : Text} {ts : List Tree} (h : Tree.parse source = .ok ts) :
    Tree.parse (wrapped w.tag source) = .ok [.node (.element (.named w.tag)) ts] :=
  Tree.parse_wrapped w.usualName_tag w.tag_not_void w.tag_not_raw h

theorem printAll_wrapped_tag (layout : Layout) (ts : List Tree) :
    printAll layout [.node (.element (.named w.tag)) ts] = wrapped w.tag (printAll layout ts) :=
  Element.printAll_named w.tag_not_void layout ts

section Render

variable {settings : Settings} {source : Text} {ts us behind : List Tree}

theorem render_engine (settings : Settings) (source : Text) : (w.engine settings).render source =
    (Siblings.renderSource w.library settings.maxDepth settings.maxDepth.toNat source).map
      (printAll settings.layout) :=
  Engine.render_eq _ _

/-- What is normal renders as it is, also in the tags. -/
theorem render_of_normal (settings : Settings) (hparse : Tree.parse source = .ok ts)
    (h : EachAll (NodeKind.Normal w.library) ts) :
    (w.engine settings).render source = .ok (printAll settings.layout ts) := by
  rw [render_engine, Siblings.renderSource_of_normal hparse h]
  rfl

theorem normal_wrapped_tag (h : EachAll (NodeKind.Normal w.library) ts) :
    EachAll (NodeKind.Normal w.library) [.node (.element (.named w.tag)) ts] := by
  refine ⟨⟨?_, h⟩, trivial⟩
  rintro _ ⟨⟩
  exact Element.normal_plain w.lookup_tag

/-- **A usage renders to the wrapped trees** in front of what stands behind it. -/
theorem renderSource_usage
    (hparse : Tree.parse source = .ok (.node (.element (.named w.key)) us :: behind))
    (h : EachAll (NodeKind.Normal w.library) behind) (limit : UInt64) (levels : Nat) :
    Siblings.renderSource w.library limit (levels + 1) source =
      (Siblings.renderSource w.library limit levels
        (wrapped w.tag (printAll .verbatim us))).map (· ++ behind) := by
  rw [Siblings.renderSource_usage hparse rfl w.lookup_key h, filledBody_component]

theorem exists_levels (h : 1 ≤ settings.maxDepth) :
    ∃ levels, settings.maxDepth.toNat = levels + 1 :=
  Nat.exists_eq_add_of_le' (UInt64.le_iff_toNat_le.mp h)

/-- **The usage renders like the element**, if its tags are read as a usage that holds what is
printed as the source. -/
theorem render_eq_of_parse (hdepth : 1 ≤ settings.maxDepth)
    (hsource : Tree.parse source = .ok ts) (hunused : EachAll (Siblings.Unused w.library) ts)
    (hparse : Tree.parse (wrapped w.key source) = .ok [.node (.element (.named w.key)) us])
    (hprint : printAll .verbatim us = source) :
    (w.engine settings).render (wrapped w.key source) =
      (w.engine settings).render (wrapped w.tag source) := by
  obtain ⟨levels, hlevels⟩ := exists_levels hdepth
  have hwrapped : EachAll (Siblings.Unused w.library) [.node (.element (.named w.tag)) ts] := by
    refine ⟨⟨?_, hunused⟩, trivial⟩
    rintro _ ⟨⟩
    exact w.lookup_tag
  have husage := w.renderSource_usage hparse trivial settings.maxDepth levels
  rw [hprint, Siblings.renderSource_eq_of_unused (w.parse_wrapped_tag hsource) hwrapped
    settings.maxDepth levels (levels + 1)] at husage
  rw [render_engine, render_engine, hlevels, husage]
  cases Siblings.renderSource w.library settings.maxDepth (levels + 1)
    (wrapped w.tag source) with
  | error fault => rfl
  | ok out => simp [Except.map]

end Render

/-! ## 5. Keys that cannot be used -/

section Unusable

variable (settings : Settings)

/-- A key that begins with a digit opens no tag. -/
theorem render_ne_of_digit (hdigit : w.key.head?.any Char.isAlpha = false) :
    (w.engine settings).render (wrapped w.key []) ≠
      (w.engine settings).render (wrapped w.tag []) := by
  obtain ⟨d, more, hkey⟩ : ∃ d more, w.key = d :: more := List.exists_cons_of_ne_nil w.key_ne_nil
  have hchars : ∀ c ∈ w.key, c.isAlphanum = true := fun c => ComponentName.isAlphanum_of_mem_key
  rw [hkey] at hdigit hchars
  have htag := w.render_of_normal settings (w.parse_wrapped_tag (Tree.parse_plain Lexeme.plain_nil))
    (w.normal_wrapped_tag trivial)
  have htext := w.render_of_normal settings (Tree.parse_wrapped_digit hdigit hchars)
    ⟨⟨nofun, trivial⟩, trivial⟩
  have hprint : printAll settings.layout [leaf (.text (wrapped (d :: more) []))] =
      wrapped (d :: more) [] := by
    have henclosed := settings.layout.apply_enclosed (by decide : Text.isBlank '<' = false)
      (by decide : Text.isBlank '>' = false) (d :: more ++ '>' :: '<' :: '/' :: d :: more)
    simpa [printAll, leaf, Tree.print, wrapped] using henclosed
  obtain ⟨c, more', htagName, halpha⟩ := w.usualName_tag.exists_cons
  rw [hkey, htag, htext, printAll_wrapped_tag, hprint, htagName]
  intro heq
  obtain rfl : d = c := (List.cons.inj (List.cons.inj (Except.ok.inj heq)).2).1
  cases halpha.symm.trans hdigit

/-- The tag of a void name leaves the source behind the usage. -/
theorem render_ne_of_void (hdepth : 1 ≤ settings.maxDepth) (hname : Tag.UsualName w.key)
    (hvoid : isVoidName w.key = true) :
    (w.engine settings).render (wrapped w.key ['y']) ≠
      (w.engine settings).render (wrapped w.tag ['y']) := by
  obtain ⟨levels, hlevels⟩ := exists_levels hdepth
  have hy : Tree.parse ['y'] = .ok [leaf (.text ['y'])] :=
    Tree.parse_plain (Lexeme.plain_of_lt_not_mem (by decide))
  have hprint : printAll settings.layout [leaf (.text ['y'])] = ['y'] := by
    cases settings.layout <;> decide
  have hnormal : EachAll (NodeKind.Normal w.library) [leaf (.text ['y'])] :=
    ⟨⟨nofun, trivial⟩, trivial⟩
  have htag := w.render_of_normal settings (w.parse_wrapped_tag hy) (w.normal_wrapped_tag hnormal)
  have hkey : (w.engine settings).render (wrapped w.key ['y']) =
      .ok (wrapped w.tag [] ++ ['y']) := by
    have hempty : Siblings.renderSource w.library settings.maxDepth levels (wrapped w.tag []) =
        .ok [.node (.element (.named w.tag)) []] :=
      Siblings.renderSource_of_normal (w.parse_wrapped_tag (Tree.parse_plain Lexeme.plain_nil))
        (w.normal_wrapped_tag trivial) levels
    rw [render_engine, hlevels,
      w.renderSource_usage (Tree.parse_wrapped_void hname hvoid hy) hnormal, printAll, hempty,
      Except.map, Except.map, Tree.printAll_append, printAll_wrapped_tag, hprint, printAll]
  rw [htag, hkey, printAll_wrapped_tag, hprint]
  intro heq
  have hinner : ('<' :: '/' :: w.tag ++ ['>']) ++ ['y'] =
      'y' :: ('<' :: '/' :: w.tag ++ ['>']) := by
    simpa [wrapped] using Except.ok.inj heq
  exact absurd (List.cons.inj hinner).1 (by decide)

/-- A raw element does not hold an element that has its name in another case. -/
theorem render_ne_of_raw (hkeyRaw : isRawName w.key = true) {r : Text} (hr : r ≠ w.key)
    (hsame : Text.sameFold w.key r = true) :
    (w.engine settings).render (wrapped w.key (wrapped r [])) ≠
      (w.engine settings).render (wrapped w.tag (wrapped r [])) := by
  have hraw : isRawName r = true := (Token.isRawName_of_sameFold hsame).trans hkeyRaw
  have hempty : Lexeme.HoldsNoEnd r [] := Lexeme.holdsNoEnd_of_not_mem List.not_mem_nil r
  have hnormal : EachAll (NodeKind.Normal w.library) [.node (.element (.named r)) []] := by
    refine ⟨⟨?_, trivial⟩, trivial⟩
    rintro _ ⟨⟩
    exact Element.normal_plain (e := .named r) (w.lookup_eq_none_iff.mpr hr)
  have htag := w.render_of_normal settings
    (w.parse_wrapped_tag (Tree.parse_wrapped_raw (Tag.usualName_of_isRawName hraw) hraw hempty))
    (w.normal_wrapped_tag hnormal)
  obtain ⟨p, hfault⟩ := Tree.parse_wrapped_inside hkeyRaw hsame
  rw [htag, render_engine, Siblings.renderSource_of_error hfault]
  exact nofun

end Unusable

end Wrapper

/-! ## 6. Usable keys -/

namespace Document

variable {d : Document}

/-- What is printed of the document is read as a document with the same tree. -/
def ReadsBack (d : Document) : Prop :=
  ∃ d', parse (d.print .verbatim) = .ok d' ∧ d'.tree root = d.tree root

/-- No element of the document has the name. -/
def Lacks (d : Document) (name : Text) : Prop :=
  (d.tree root).Each fun kind _ => ∀ e, kind = .element e → e.name ≠ name

theorem ReadsBack.exists_trees (h : d.ReadsBack) : ∃ ts, d.tree root = .node .fragment ts ∧
    d.print .verbatim = printAll .verbatim ts ∧ Tree.parse (d.print .verbatim) = .ok ts := by
  obtain ⟨d', hparse, htree⟩ := h
  obtain ⟨ts, hts, rfl⟩ := exists_of_map_eq_ok hparse
  rw [tree_root_ofTrees] at htree
  refine ⟨ts, htree.symm, ?_, hts⟩
  rw [print, ← htree, Tree.print]

end Document

namespace Wrapper

variable (w : Wrapper)

section Documents

variable {settings : Settings} {d : Document}

theorem unused_of_lacks {ts : List Tree} (h : d.Lacks w.key)
    (htree : d.tree Document.root = .node .fragment ts) :
    EachAll (Siblings.Unused w.library) ts := by
  have heq : Siblings.Unused w.library = fun kind _ =>
      ∀ e, kind = .element e → e.name ≠ w.key := by
    funext kind children
    simp only [Siblings.Unused, lookup_eq_none_iff]
  rw [Document.Lacks, htree] at h
  rw [heq]
  exact h.2

/-- **A key that can be used is used like the element.** -/
theorem render_eq_of_usable (hdepth : 1 ≤ settings.maxDepth) (hkey : ComponentName.Usable w.key)
    (hback : d.ReadsBack) (hlacks : d.Lacks w.key) :
    (w.engine settings).render (wrapped w.key (d.print .verbatim)) =
      (w.engine settings).render (wrapped w.tag (d.print .verbatim)) := by
  obtain ⟨ts, htree, hprint, hparse⟩ := hback.exists_trees
  refine w.render_eq_of_parse hdepth hparse (w.unused_of_lacks hlacks htree) ?_ hprint.symm
  exact Tree.parse_wrapped (Tag.usualName_key hkey.alpha) hkey.not_void hkey.not_raw hparse

/-- The name of a raw element is used like the element around markup without its end tag. -/
theorem render_eq_of_raw (hdepth : 1 ≤ settings.maxDepth) (hraw : isRawName w.key = true)
    (hback : d.ReadsBack) (hlacks : d.Lacks w.key)
    (hend : Lexeme.HoldsNoEnd w.key (d.print .verbatim)) :
    (w.engine settings).render (wrapped w.key (d.print .verbatim)) =
      (w.engine settings).render (wrapped w.tag (d.print .verbatim)) := by
  obtain ⟨ts, htree, -, hparse⟩ := hback.exists_trees
  refine w.render_eq_of_parse hdepth hparse (w.unused_of_lacks hlacks htree)
    (Tree.parse_wrapped_raw (Tag.usualName_of_isRawName hraw) hraw hend) ?_
  unfold Tree.ofText
  split
  · next hempty => rw [hempty, printAll]
  · simp [printAll, leaf, Tree.print, Layout.apply]

/-- What tells the tags of the key from those of the element is a document. -/
theorem exists_of_render_ne {ts : List Tree} {source : Text} (hts : Tree.CanonicalAll ts)
    (hprint : printAll .verbatim ts = source)
    (hlacks : EachAll (fun kind _ => ∀ e, kind = .element e → e.name ≠ w.key) ts)
    (h : (w.engine settings).render (wrapped w.key source) ≠
      (w.engine settings).render (wrapped w.tag source)) :
    ∃ d : Document, d.ReadsBack ∧ d.Lacks w.key ∧
      (w.engine settings).render (wrapped w.key (d.print .verbatim)) ≠
        (w.engine settings).render (wrapped w.tag (d.print .verbatim)) := by
  have htree := Document.tree_root_ofTrees ts
  refine ⟨.ofTrees ts, Document.parse_print_of_canonical ⟨ts, htree, hts⟩, ?_, ?_⟩
  · rw [Document.Lacks, htree]
    exact ⟨nofun, hlacks⟩
  · rwa [Document.print, htree, Tree.print, hprint]

/-- **If a key cannot be used**, there is a document that tells its tags from those of the
element. -/
theorem exists_render_ne (hdepth : 1 ≤ settings.maxDepth) (hkey : ¬ ComponentName.Usable w.key) :
    ∃ d : Document, d.ReadsBack ∧ d.Lacks w.key ∧
      (w.engine settings).render (wrapped w.key (d.print .verbatim)) ≠
        (w.engine settings).render (wrapped w.tag (d.print .verbatim)) := by
  cases halpha : w.key.head?.any Char.isAlpha with
  | false =>
    have hempty : Tree.CanonicalAll [] := trivial
    exact w.exists_of_render_ne hempty rfl trivial (w.render_ne_of_digit settings halpha)
  | true =>
    have hname := Tag.usualName_key halpha
    cases hvoid : isVoidName w.key with
    | true =>
      have hcanonical : Tree.CanonicalAll [leaf (.text ['y'])] :=
        ⟨⟨nofun, Lexeme.plain_of_lt_not_mem (by decide), rfl⟩, nofun, trivial⟩
      exact w.exists_of_render_ne hcanonical rfl ⟨⟨nofun, trivial⟩, trivial⟩
        (w.render_ne_of_void settings hdepth hname hvoid)
    | false =>
      have hraw : isRawName w.key = true := by
        by_contra hraw
        exact hkey ⟨halpha, hvoid, Bool.eq_false_iff.mpr hraw⟩
      obtain ⟨r, hr, hsame⟩ := List.any_eq_true.mp hraw
      have hsame : Text.sameFold w.key r = true := beq_iff_eq.mpr (beq_iff_eq.mp hsame).symm
      have hrawName : isRawName r = true := (Token.isRawName_of_sameFold hsame).trans hraw
      have hlower : ∀ r ∈ rawNames, r ≠ [] ∧ r.all Char.isLower = true := by decide
      obtain ⟨hne, hletters⟩ := hlower r hr
      have hr : r ≠ w.key :=
        (ComponentName.key_ne_of_isLower hne (List.all_eq_true.mp hletters)).symm
      have hcanonical : Tree.CanonicalAll [.node (.element (.named r)) []] := by
        refine ⟨⟨Element.canonical_named (Tag.usualName_of_isRawName hrawName), fun _ => rfl, ?_⟩,
          nofun, trivial⟩
        rw [Element.named, if_pos hrawName]
        exact Or.inl rfl
      have hprint := Element.printAll_named (isVoidName_of_isRawName hrawName) .verbatim []
      refine w.exists_of_render_ne hcanonical hprint ⟨⟨?_, trivial⟩, trivial⟩
        (w.render_ne_of_raw settings hraw hr hsame)
      rintro _ ⟨⟩
      exact hr

/-- **A component is used by its key** like the element that it wraps its children in, whatever they
are, if and only if the key begins with a letter and is neither void nor raw. -/
theorem render_usage_iff_usable (hdepth : 1 ≤ settings.maxDepth) : ∃ e : Engine,
    Engine.register ⟨.empty, settings⟩ w.source = .ok (e, 1) ∧
    ((∀ d : Document, d.ReadsBack → d.Lacks w.key →
        e.render (wrapped w.key (d.print .verbatim)) =
          e.render (wrapped w.tag (d.print .verbatim))) ↔
      ComponentName.Usable w.key) ∧
    (isRawName w.key = true → ∀ d : Document, d.ReadsBack → d.Lacks w.key →
      Lexeme.HoldsNoEnd w.key (d.print .verbatim) →
        e.render (wrapped w.key (d.print .verbatim)) =
          e.render (wrapped w.tag (d.print .verbatim))) := by
  refine ⟨w.engine settings, w.register_source settings, ⟨fun hall => ?_, fun hkey d => ?_⟩,
    fun hraw d => w.render_eq_of_raw hdepth hraw⟩
  · by_contra hkey
    obtain ⟨d, hback, hlacks, hne⟩ := w.exists_render_ne hdepth hkey
    exact hne (hall d hback hlacks)
  · exact w.render_eq_of_usable hdepth hkey

/-- The component of the name `a-b`, used as `AB`. -/
def usableSample : Wrapper where
  name := ['a', '-', 'b']
  tag := ['x']
  name_chars := List.all_eq_true.mp (by decide)
  key_ne_nil := by decide
  tag_ne_nil := by decide
  tag_lower := List.all_eq_true.mp (by decide)
  tag_not_void := by decide
  tag_not_raw := by decide

/-- An element with a directive, and a text that would open a tag in front of a letter. -/
def childrenSample : Document :=
  .ofTrees
    [.node (.element { name := ['b'], branch := some (.when ['1']) }) [leaf (.text ['c'])],
      leaf (.text ['<'])]

theorem render_usage_usableSample : (1 : UInt64) ≤ ({} : Settings).maxDepth ∧
    ∃ e : Engine, Engine.register ⟨.empty, {}⟩ usableSample.source = .ok (e, 1) ∧
      childrenSample.ReadsBack ∧ childrenSample.Lacks ['A', 'B'] ∧
      e.render (wrapped ['A', 'B'] (childrenSample.print .verbatim)) =
        e.render (wrapped ['x'] (childrenSample.print .verbatim)) := by
  have hdepth : (1 : UInt64) ≤ ({} : Settings).maxDepth := by decide
  have hkey : usableSample.key = ['A', 'B'] := by decide
  have hback : childrenSample.ReadsBack := ⟨childrenSample, by decide +kernel, rfl⟩
  have hlacks : childrenSample.Lacks ['A', 'B'] := by
    refine ⟨nofun, ⟨?_, ⟨nofun, trivial⟩, trivial⟩, ⟨nofun, trivial⟩, trivial⟩
    rintro _ ⟨⟩
    decide
  obtain ⟨e, hregister, hiff, -⟩ := usableSample.render_usage_iff_usable hdepth
  rw [hkey] at hiff
  have husable : ComponentName.Usable ['A', 'B'] := ⟨by decide, by decide, by decide⟩
  exact ⟨hdepth, e, hregister, hback, hlacks, hiff.mpr husable _ hback hlacks⟩

/-- The component of the name `link`, whose key `Link` is the name of a void element. -/
def voidSample : Wrapper :=
  { usableSample with
    name := "link".toList
    name_chars := List.all_eq_true.mp (by decide)
    key_ne_nil := by decide }

/-- **Not every component is used by its key**: `<Link>c</Link>` does not render like `<x>c</x>`, as
the text is left behind the element and not inside. -/
theorem not_used_voidSample : ∃ e : Engine,
    Engine.register ⟨.empty, {}⟩ voidSample.source = .ok (e, 1) ∧
    ∃ d : Document, d.ReadsBack ∧ d.Lacks voidSample.key ∧
      e.render (wrapped voidSample.key (d.print .verbatim)) =
        .ok "<x></x>c".toList ∧
      e.render (wrapped voidSample.tag (d.print .verbatim)) =
        .ok "<x>c</x>".toList := by
  refine ⟨voidSample.engine {}, by decide +kernel, .ofTrees [leaf (.text ['c'])], ?_, ?_, ?_, ?_⟩
  · exact ⟨.ofTrees [leaf (.text ['c'])], by decide +kernel, rfl⟩
  · exact ⟨nofun, ⟨nofun, trivial⟩, trivial⟩
  · decide +kernel
  · decide +kernel

end Documents

end Wrapper

end Stencil
