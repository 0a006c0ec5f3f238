/-
# Roots that ask for a value

A component may be shown or not by a value of its usage: the element that declares it carries
`@if="{p}"`.  The placeholder is filled before the body is read, so what is read as the condition is
text that came from the usage.  It arrives there as it was given: it is made inert on its way into
the quotes, and decoded on its way out of them (`Asked.exists_filledBody`, `Asked.exists_first`).

So the condition is the value, whatever else stands in the body.  But it is a condition like any
other: a value in which the sign of a comparison stands is compared, and not asked for being empty,
`0` or `false` (`Library.root_asks`).  A breadcrumb with a `>` in it hides what it should show
(`Library.not_shown_crumbs`).

The filled body has to be read before anything is asked.  That its slots are escaped is not enough
for this: behind a `<` in a text, a value that begins with a letter begins a tag.  It is enough in a
body that `Document.IsBody` describes, in which no text has a `<` (`Asked.exists_parse`).
-/
import Stencil.Proofs.Component.Definitions
import Stencil.Proofs.Component.Escaping
import Stencil.Proofs.Component.Placeholders
import Stencil.Proofs.Condition.Comparisons
import Stencil.Proofs.Markup.StartTags
import Stencil.Proofs.Rendering.NormalForm

namespace Stencil

open Stencil.Tree (printAll EachAll)

/-! ## 1. Filled start tags -/

section Filled

variable {resolve : Slot → Text} (x : Placeholder)

/-- A placeholder is filled with the answer to its slot. -/
theorem Body.fill_written (rest : Text) :
    fill resolve (x.written ++ rest) = resolve x.slot ++ fill resolve rest := by
  have hpieces : pieces (x.written ++ rest) = .slot x.slot :: pieces rest :=
    pieces_of_some (x.read?_append rest)
  rw [fill, hpieces, List.flatMap_cons]
  rfl

/-- Quoting does not change a placeholder. -/
theorem Placeholder.quoted_written : Text.quoted x.written = x.written := by
  have hplain : ∀ c ∈ x.written, Text.quotedChar c = [c] := by
    intro c hc
    have hslot : c = '{' ∨ Slot.endsSlot c = false := by
      rcases List.mem_cons.mp hc with rfl | hc
      · exact Or.inl rfl
      · rcases List.mem_append.mp hc with hc | hc
        · right
          rw [Slot.endsSlot, x.chars c hc]
          rfl
        · rw [Placeholder.closing] at hc
          split at hc
          · simp only [List.mem_cons, List.not_mem_nil, or_false] at hc
            rcases hc with rfl | rfl <;> exact Or.inr rfl
          · obtain rfl := List.mem_singleton.mp hc
            exact Or.inr rfl
    rcases Text.quotedChar_cases c with h | ⟨hends, hne, -⟩
    · exact h
    · rcases hslot with rfl | hslot
      · exact absurd rfl hne
      · cases hslot.symm.trans hends
  rw [Text.quoted, List.flatMap_congr hplain, List.flatMap_singleton']

/-- An element that asks is printed as its name, the `@if`, and more. -/
theorem Element.exists_print_asking {e : Element} (hdeclares : e.declares = none)
    (hasks : e.branch = some (.when x.written)) (children : List Tree) :
    ∃ more, (Tree.node (.element e) children).print .verbatim =
      '<' :: (e.name ++ ((Written.asking x.written).text ++ more)) := by
  have hcontent : e.content = e.name ++ ((Written.asking x.written).text ++
      (e.attributes.map Attribute.written).flatMap Written.text) := by
    have hbranch : (Branch.when x.written).written = .asking x.written := by
      rw [Branch.written, Written.asking]
      exact congrArg _ x.quoted_written
    rw [e.content_eq, Element.written, hdeclares, hasks, Option.map_none, Option.map_some, hbranch,
      Option.toList_none, Option.toList_some, List.nil_append, List.flatMap_append,
      List.flatMap_singleton]
  have hprint : ∃ more, e.printAround children.isEmpty (printAll .verbatim children) =
      '<' :: (e.content ++ more) := by
    rw [printAround_eq]
    split
    · exact ⟨['/', '>'], by simp [emptyTag, Lexeme.written]⟩
    · exact ⟨['>'], rfl⟩
    · exact ⟨'>' :: (printAll .verbatim children ++ e.endTag.written),
        by simp [startTag, Lexeme.written]⟩
  obtain ⟨more, hprint⟩ := hprint
  refine ⟨(e.attributes.map Attribute.written).flatMap Written.text ++ more, ?_⟩
  rw [Tree.print, hprint, hcontent, List.append_assoc, List.append_assoc]

/-- **The start tag of a filled element that asks for a slot** is its name with the answer in an
`@if` behind it, and more. -/
theorem Element.exists_fill_print {e : Element} (hdeclares : e.declares = none)
    (hasks : e.branch = some (.when x.written)) (children : List Tree) :
    ∃ more, Body.fill resolve ((Tree.node (.element e) children).print .verbatim) =
      '<' :: (Body.fill resolve e.name ++ ((Written.asking (resolve x.slot)).text ++ more)) := by
  obtain ⟨more, hprint⟩ := exists_print_asking x hdeclares hasks children
  have hbefore : '{' ∉ ['<'] := by decide
  have hfine : (Written.asking x.written).Fine := by
    refine ⟨Branch.fineName_keyword _, Or.inl rfl, ?_⟩
    rw [← x.quoted_written]
    exact Text.not_mem_quoted (by decide) x.written
  have hvalue : Body.fill resolve x.written = resolve x.slot := by
    have hfill : Body.fill resolve (x.written ++ []) = resolve x.slot ++ Body.fill resolve [] :=
      Body.fill_written x []
    rwa [List.append_nil, Body.fill_of_not_mem List.not_mem_nil, List.append_nil] at hfill
  have hasking : Body.fill resolve (Written.asking x.written).text =
      (Written.asking (resolve x.slot)).text := by
    rw [Written.fill_text hfine, ← hvalue]
    rfl
  refine ⟨Body.fill resolve more, ?_⟩
  rw [hprint, ← List.singleton_append, (Body.closed_of_not_mem hbefore).fill_append,
    Body.fill_of_not_mem hbefore, Body.fill_append rfl, (Written.closed_text hfine).fill_append,
    hasking]
  rfl

end Filled

/-! ## 2. Trees in a tree -/

namespace Tree

variable {Q : NodeKind → List Tree → Prop}

mutual

/-- What holds everywhere in a tree holds everywhere in the trees in it. -/
theorem Each.of_mem_subtrees : ∀ {t : Tree}, t.Each Q → ∀ {s : Tree}, s ∈ t.subtrees → s.Each Q
  | node kind children, h, s, hs => by
    rw [subtrees_node] at hs
    rcases List.mem_cons.mp hs with rfl | hs
    · exact h
    · exact EachAll.of_mem_subtrees h.2 hs

theorem EachAll.of_mem_subtrees :
    ∀ {ts : List Tree}, EachAll Q ts → ∀ {s : Tree}, s ∈ subtreesAll ts → s.Each Q
  | [], _, s, hs => by
    rw [subtreesAll_nil] at hs
    exact absurd hs List.not_mem_nil
  | t :: ts, h, s, hs => by
    rw [subtreesAll_cons] at hs
    rcases List.mem_append.mp hs with hs | hs
    · exact h.1.of_mem_subtrees hs
    · exact EachAll.of_mem_subtrees h.2 hs

end

end Tree

/-! ## 3. What is rendered -/

open Siblings

/-- The usage gives `u` for the slot that the root of its component asks for.  If the name of the
root has slots in it, it must still be a name when they are filled. -/
structure Asked (l : Library) (usage : Element) (inside : List Tree) (c : Component)
    (root : Element) (u : Text) : Prop where
  made : ∃ sources, l = Library.afterCalls sources
  found : l.lookup usage.name = some c
  root_eq : ∃ below, c.definition.tree 1 = .node (.element root) below
  asks : ∃ (x : Placeholder) (p : Text), x.slot = .value p false ∧
    root.branch = some (.when x.written) ∧ usage.value? p = some u
  name_eq : Body.slots root.name = [] ∨ ∀ ch ∈ Body.fill (slotText usage inside) root.name,
    Text.isTagBlank ch = false ∧ ch ∉ ['>', '"', '\'']

variable {l : Library} {usage root e : Element} {inside below behind : List Tree} {c : Component}
  {u : Text}

namespace Asked

/-- The root is an element that was read, and the body is printed of it. -/
theorem exists_root (h : Asked l usage inside c root u) :
    Tag.Heads root.name ∧ ∃ below, c.anonymous.tree Document.root =
      .node .fragment [.node (.element root.withoutDeclaration) below] := by
  obtain ⟨sources, rfl⟩ := h.made
  obtain ⟨source, -, ts, hparse, x, hx, rfl⟩ := Library.exists_declaration h.found
  obtain ⟨below, hbelow⟩ := h.root_eq
  rw [Component.tree_definition] at hbelow
  obtain ⟨t, ht, hdeclared⟩ := List.mem_filterMap.mp hx
  obtain ⟨name, -, hxt⟩ := Option.map_eq_some_iff.mp hdeclared
  obtain rfl : t = x.2 := by rw [← hxt]
  have heach := (Tree.heads_of_parse hparse).of_mem_subtrees ht
  rw [hbelow] at heach
  refine ⟨heach.1 root rfl, below, ?_⟩
  rw [Component.tree_anonymous, hbelow]
  rfl

/-- The name of the root is a name when it is filled. -/
theorem heads (h : Asked l usage inside c root u) :
    Tag.Heads (Body.fill (slotText usage inside) root.name) := by
  have hheads := h.exists_root.1
  rcases h.name_eq with hslots | hname
  · rwa [Body.fill_of_slots_eq_nil hslots]
  · -- the name begins with a letter, and so no slot stands in front
    refine Tag.heads_of_neutral ?_ (fun ch hch => (hname ch hch).1) fun ch hch => (hname ch hch).2
    obtain ⟨ch, rest, hcons, halpha⟩ := hheads.exists_cons
    rw [hcons, Body.fill, Body.pieces_cons_of_ne (ne_of_isAlpha halpha (by decide)),
      List.flatMap_cons]
    exact halpha

/-- **The filled body begins with the root, which asks for the value.** -/
theorem exists_filledBody (h : Asked l usage inside c root u) :
    ∃ more, filledBody usage inside c = '<' :: (Body.fill (slotText usage inside) root.name ++
      ((Written.asking (Text.inert u)).text ++ more)) := by
  obtain ⟨below, hbelow⟩ := h.exists_root.2
  obtain ⟨x, p, hslot, hbranch, hu⟩ := h.asks
  have hvalue : slotText usage inside x.slot = Text.inert u := by
    rw [hslot, slotText_value, hu, Option.getD_some]
  have hdeclares : root.withoutDeclaration.declares = none := rfl
  rw [filledBody, Component.body, Document.print, hbelow, Tree.print, printAll, printAll,
    List.append_nil, ← hvalue]
  exact Element.exists_fill_print x hdeclares hbranch below

/-- **What is read of the filled body begins with the root, and its condition is the value.** -/
theorem exists_first (h : Asked l usage inside c root u) {ts : List Tree}
    (hparse : Tree.parse (filledBody usage inside c) = .ok ts) :
    ∃ e below behind, ts = .node (.element e) below :: behind ∧
      e.name = Body.fill (slotText usage inside) root.name ∧ e.branch = some (.when u) := by
  have hinert : Lexeme.Neutral (Text.inert u) := fun ch hch hmem =>
    Text.not_mem_inert (List.mem_cons_of_mem _ hmem) u hch
  obtain ⟨more, hbody⟩ := h.exists_filledBody
  rw [hbody] at hparse
  obtain ⟨e, below, behind, hts, hname, hbranch⟩ := Tree.first_of_parse h.heads hinert hparse
  rw [Text.decode_inert] at hbranch
  exact ⟨e, below, behind, hts, hname, hbranch⟩

/-- **What comes to the place of the usage** is the body, whose root stays or not as the value has
it. -/
theorem placed_eq (h : Asked l usage inside c root u)
    (hparse : Tree.parse (filledBody usage inside c) = .ok (.node (.element e) below :: behind))
    (hbranch : e.branch = some (.when u)) (limit : UInt64) (levels : Nat) :
    placed l (expansionAt l limit (levels + 1)) usage inside =
      match replaced l (expansionAt l limit levels) e below u.holds with
      | .error fault => .error fault
      | .ok here => (render l (expansionAt l limit levels)
          (if u.holds then afterChosen behind else afterRejected behind)).map (here ++ ·) := by
  have hplain : filledBody usage.plain inside c = filledBody usage inside c := by
    have hslot : slotText usage.plain inside = slotText usage inside := by
      funext s
      cases s <;> rfl
    rw [filledBody, filledBody, hslot]
  have hsettle : settle e behind =
      .ok (u.holds, if u.holds then afterChosen behind else afterRejected behind) :=
    settle_eq_ok.mpr (Or.inr ⟨u, hbranch, rfl, rfl⟩)
  rw [placed, h.found]
  dsimp only [expansionAt]
  rw [renderSource_eq, hplain, renderWith, hparse]
  exact render_of_settle hsettle

/-- **A body whose texts and values can be told from markup**, and whose slots are escaped, can be
read whatever the usage gives, and is the root and what is in it. -/
theorem exists_parse (h : Asked l usage inside c root u) (hbody : c.anonymous.IsBody) :
    ∃ e below, Tree.parse (filledBody usage inside c) = .ok [.node (.element e) below] := by
  obtain ⟨below, hbelow⟩ := h.exists_root.2
  obtain ⟨ts, hts, hall⟩ := hbody
  obtain rfl := (Tree.node.inj (hbelow.symm.trans hts)).2
  have hparse := parse_filledBody hbelow hall usage inside
  rw [Tree.filledAll, Tree.filled, Tree.filledAll, List.append_nil] at hparse
  exact ⟨_, _, hparse⟩

/-- A template that is the usage renders to the root, if the root is all of the body. -/
theorem render_eq (h : Asked l usage inside c root u)
    (hparse : Tree.parse (filledBody usage inside c) = .ok [.node (.element e) below])
    (hbranch : e.branch = some (.when u)) {settings : Settings} (hdepth : settings.maxDepth ≠ 0)
    {template : Text} (htemplate : Tree.parse template = .ok [.node (.element usage) inside])
    (halone : usage.branch = none) :
    Engine.render ⟨l, settings⟩ template =
      if u.holds then
        (placed l (expansionAt l settings.maxDepth (settings.maxDepth.toNat - 1)) e below).map
          (printAll settings.layout)
      else .ok [] := by
  have hlevels : settings.maxDepth.toNat = settings.maxDepth.toNat - 1 + 1 := by
    have hne : settings.maxDepth.toNat ≠ 0 := fun hzero => hdepth (UInt64.toNat_inj.mp hzero)
    omega
  have hplaced := h.placed_eq hparse hbranch settings.maxDepth (settings.maxDepth.toNat - 1)
  rw [← hlevels] at hplaced
  rw [Engine.render_eq, renderSource_eq, renderWith, htemplate]
  dsimp only
  rw [render_singleton halone, hplaced]
  cases u.holds with
  | true =>
    simp only [replaced, if_true, afterChosen, render_nil]
    cases placed l (expansionAt l settings.maxDepth (settings.maxDepth.toNat - 1)) e below with
    | error fault => rfl
    | ok here => simp [Except.map]
  | false => simp [replaced, afterRejected, Except.map, printAll]

end Asked

/-- A text holds if what it writes does. -/
theorem Condition.Writes.holds_eq {t : Text} {condition : Condition} (h : Writes t condition) :
    t.holds = condition.holds := by
  rw [Text.holds, read_eq_iff.mpr h]

/-- **A root that asks for a value is rendered if the value, as a condition, holds.**  Without a
sign of a comparison in it, a value holds unless it is empty, `0` or `false`; with one, it holds if
the comparison does that it writes.  This is so however the usage wrote the value, and whatever else
stands in the body, as long as the filled body can be read; the condition of the root that is read
is the value.  A body of the kind that escaped values cannot change (`Document.IsBody`) can be read
whatever the usage gives; then the root, or nothing, is all that is rendered. -/
theorem Library.root_asks (h : Asked l usage inside c root u) :
    ((∀ relation : Comparison, ¬ relation.sign <:+: u) →
      (u.holds = true ↔ u ∉ Condition.falseValues)) ∧
    (∀ (relation : Comparison) (a b : Text), Condition.Writes u (.comparison relation a b) →
      (u.holds = true ↔ relation.Relates a b)) ∧
    (∀ ts, Tree.parse (filledBody usage inside c) = .ok ts →
      ∃ e below behind, ts = .node (.element e) below :: behind ∧
        e.name = Body.fill (slotText usage inside) root.name ∧ e.branch = some (.when u) ∧
        ∀ limit levels, placed l (expansionAt l limit (levels + 1)) usage inside =
          match replaced l (expansionAt l limit levels) e below u.holds with
          | .error fault => .error fault
          | .ok here => (render l (expansionAt l limit levels)
              (if u.holds then afterChosen behind else afterRejected behind)).map (here ++ ·)) ∧
    (c.anonymous.IsBody →
      ∃ e below, Tree.parse (filledBody usage inside c) = .ok [.node (.element e) below] ∧
        e.name = Body.fill (slotText usage inside) root.name ∧ e.branch = some (.when u) ∧
        ∀ (settings : Settings) (template : Text), settings.maxDepth ≠ 0 →
          Tree.parse template = .ok [.node (.element usage) inside] → usage.branch = none →
          Engine.render ⟨l, settings⟩ template =
            if u.holds then
              (placed l (expansionAt l settings.maxDepth (settings.maxDepth.toNat - 1)) e below).map
                (printAll settings.layout)
            else .ok []) := by
  refine ⟨fun hnone => ?_, fun relation a b hwrites => ?_, fun ts hparse => ?_, fun hbody => ?_⟩
  · rw [(Condition.Writes.bare hnone).holds_eq, Condition.holds, Bool.not_eq_true',
      ← Bool.not_eq_true, List.contains_iff_mem]
  · rw [hwrites.holds_eq]
    exact relation.holds_iff_relates a b
  · obtain ⟨e, below, behind, rfl, hname, hbranch⟩ := h.exists_first hparse
    exact ⟨e, below, behind, rfl, hname, hbranch, h.placed_eq hparse hbranch⟩
  · obtain ⟨e, below, hparse⟩ := h.exists_parse hbody
    obtain ⟨e', below', behind, hts, hname, hbranch⟩ := h.exists_first hparse
    obtain ⟨⟨rfl, rfl⟩, rfl⟩ : (e = e' ∧ below = below') ∧ behind = [] := by
      simpa using hts
    refine ⟨e, below, hparse, hname, hbranch, ?_⟩
    intro settings template hdepth htemplate halone
    exact h.render_eq hparse hbranch hdepth htemplate halone

/-- The declaration of a component whose root asks for what is in it. -/
def askingSample : Text × Tree :=
  (['t'], .node (.element ⟨['b'], some ['t'], some (.when ['{', 'p', '}']), [], false⟩)
    [.leaf (.text ['{', 'p', '}'])])

/-- A usage of the component. -/
def askingUsage (value : Text) : Element := ⟨['T'], none, none, [⟨['p'], value⟩], true⟩

/-- A value that is shown, and one that is a comparison that does not hold. -/
theorem Library.root_asks_askingSample :
    let l := afterCalls [askingSample.2.print .verbatim]
    let c := Component.ofDeclaration askingSample
    ∃ root, Asked l (askingUsage ['x']) [] c root ['x'] ∧
      Asked l (askingUsage ['1', '>', '2']) [] c root ['1', '>', '2'] ∧
      c.anonymous.IsBody ∧
      (∀ relation : Comparison, ¬ relation.sign <:+: ['x']) ∧ Text.holds ['x'] = true ∧
      placed l (expansionAt l 1 1) (askingUsage ['x']) [] =
        .ok [.node (.element ⟨['b'], none, none, [], false⟩) [.leaf (.text ['x'])]] ∧
      Condition.Writes ['1', '>', '2'] (.comparison .above ['1'] ['2']) ∧
      Text.holds ['1', '>', '2'] = false ∧
      Engine.render ⟨l, {}⟩ "<T p=\"1>2\"/>".toList = .ok [] := by
  intro l c
  let root : Element := ⟨['b'], some ['t'], some (.when ['{', 'p', '}']), [], false⟩
  let x : Placeholder := ⟨['p'], false, by simp, List.forall_mem_singleton.mpr (by decide)⟩
  have hfound : l.lookup ['T'] = some c := by decide +kernel
  have hasked : ∀ u, Asked l (askingUsage u) [] c root (Text.decode u) := fun u =>
    ⟨⟨_, rfl⟩, hfound, ⟨[.leaf (.text ['{', 'p', '}'])], by decide +kernel⟩,
      ⟨x, ['p'], rfl, rfl, rfl⟩, Or.inl (by decide +kernel)⟩
  have hshown : Asked l (askingUsage ['x']) [] c root ['x'] := hasked ['x']
  have hhidden : Asked l (askingUsage ['1', '>', '2']) [] c root ['1', '>', '2'] :=
    hasked ['1', '>', '2']
  have hbody : c.anonymous.IsBody := by
    have hescaped : Body.Escaped ['{', 'p', '}'] := by
      intro s hs
      have hslots : Body.slots ['{', 'p', '}'] = [.value ['p'] false] := by decide +kernel
      rw [hslots] at hs
      exact ⟨['p'], List.mem_singleton.mp hs⟩
    have hcanonical : root.withoutDeclaration.Canonical :=
      ⟨by decide, List.all_eq_true.mp (by decide), nofun, by decide⟩
    have hroot : root.withoutDeclaration.Escaped := by
      refine ⟨nofun, ?_, nofun⟩
      rintro _ _ ⟨⟩ ⟨⟩
      exact hescaped
    exact ⟨_, Component.tree_anonymous askingSample, ⟨hcanonical, hroot, nofun,
      fun h => absurd h (by decide), ⟨by decide, by decide, hescaped, rfl⟩, nofun, trivial⟩, nofun,
      trivial⟩
  have hnone : ∀ relation : Comparison, ¬ relation.sign <:+: ['x'] := by
    intro relation
    cases relation <;> decide
  have hwrites : Condition.Writes ['1', '>', '2'] (.comparison .above ['1'] ['2']) :=
    Condition.read_eq_iff.mp (by decide)
  obtain ⟨hbare, -, hread, -⟩ := root_asks hshown
  obtain ⟨-, hcompared, -, hrendered⟩ := root_asks hhidden
  have hholds : Text.holds ['x'] = true := (hbare hnone).mpr (by decide)
  have hnot : Text.holds ['1', '>', '2'] = false := by
    rw [← Bool.not_eq_true, hcompared _ _ _ hwrites, ← Comparison.holds_iff_relates]
    decide +kernel
  refine ⟨root, hshown, hhidden, hbody, hnone, hholds, ?_, hwrites, hnot, ?_⟩
  · have hparse : Tree.parse (filledBody (askingUsage ['x']) [] c) =
        .ok [.node (.element ⟨['b'], none, some (.when ['x']), [], false⟩)
          [.leaf (.text ['x'])]] := by decide +kernel
    obtain ⟨e, below, behind, hts, -, -, hplaced⟩ := hread _ hparse
    obtain ⟨⟨rfl, rfl⟩, rfl⟩ : (_ = e ∧ _ = below) ∧ [] = behind := by simpa using hts
    rw [hplaced 1 0, hholds]
    decide +kernel
  · obtain ⟨e, below, -, -, -, hrender⟩ := hrendered hbody
    rw [hrender {} _ (by decide) (by decide +kernel) rfl, hnot]
    rfl

/-- **Not every value is asked for being empty, `0` or `false`**: a crumb with a `>` in it is a
comparison, and hides the root.  Nor is it always the value that is asked, or the root that comes of
it: the slot `children` is what is inside the usage, whatever value has that name; a blank in a slot
in the name of the root makes the `@if` a value of another attribute; and the body may be one that
cannot be read, with markup in a slot that is not escaped, or with a slot that is behind a `<`. -/
theorem Library.not_shown_crumbs :
    let rendered (source template : String) : Except RenderFault Text :=
      Engine.render ⟨afterCalls [source.toList], {}⟩ template.toList
    (∀ u ∈ ["Home > News".toList, ['x']], u ∉ Condition.falseValues) ∧
      ['0'] ∈ Condition.falseValues ∧
      Tree.parse "<T p=\"Home > News\"/>".toList =
        .ok [.leaf (.element ⟨['T'], none, none, [⟨['p'], "Home > News".toList⟩], true⟩)] ∧
      rendered "<h2 @name=\"t\" @if=\"\x7bp\x7d\">x</h2>" "<T p=\"Home > News\"/>" = .ok [] ∧
      rendered "<h2 @name=\"t\" @if=\"\x7bchildren\x7d\">x</h2>" "<T children=\"x\"/>" = .ok [] ∧
      rendered "<h\x7bl\x7d @name=\"t\" @if=\"\x7bp\x7d\"/>" "<T p=\"0\" l=\"2 x=\"/>" =
        .ok "<h2 x='@if=\"0\"'/>".toList ∧
      (rendered "<h2 @name=\"t\" @if=\"\x7bp\x7d\">\x7bq!\x7d</h2>"
        "<T p=\"x\" q=\"&lt;i&gt;\"/>").toOption = none ∧
      (rendered "<h2 @name=\"t\" @if=\"\x7bp\x7d\">1 <\x7bq\x7d</h2>"
        "<T p=\"1\" q=\"b\"/>").toOption = none := by
  decide +kernel

end Stencil
