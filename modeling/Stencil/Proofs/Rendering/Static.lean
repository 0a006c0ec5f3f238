/-
# Markup without directives

A document is static if it can be told from its markup and has nothing that asks to be rendered: no
element carries a directive, and none bears the key of a component.  Rendering the markup of a
static document gives this markup back, in the layout of the engine (`Engine.render_of_static`).
Braces mean nothing here: they are slots in the body of a component only, and templates have none.

Static documents may hold what their markup does not show, such as an empty text in a raw element.
Without it (`Tree.shown`) their trees are canonical, so that they are read back as they were, and
normal, so that rendering has nothing to do.
-/
import Stencil.Proofs.Markup.Canonical
import Stencil.Proofs.Rendering.NormalForm

namespace Stencil

/-! ## 1. Static trees -/

namespace Tree

/-- What stands under a static raw element: nothing, or one text that does not hold its end tag. -/
def StaticContent (name : Text) (children : List Tree) : Prop :=
  children = [] ∨
    ∃ body below, children = [node (.text body) below] ∧ Lexeme.HoldsNoEnd name body

mutual

/-- The tree can be told from its markup, and nothing in it asks to be rendered.  Under texts and
doctypes anything may stand, since it is not printed. -/
def Static (l : Library) : Tree → Prop
  | node (.element e) children =>
    e.Canonical ∧ e.Normal l ∧ (e.isVoid = true ∨ e.selfClosing = true → children = []) ∧
      if isRawName e.name then StaticContent e.name children else StaticAll l children
  | node .fragment _ => False
  | node (.text t) _ => t ≠ [] ∧ Lexeme.Plain t
  | node (.doctype t) _ => t.CanonicalDoctype

/-- The trees on a list are static, and no two texts stand next to each other. -/
def StaticAll (l : Library) : List Tree → Prop
  | [] => True
  | t :: rest => t.Static l ∧ (t.IsText → ∀ s ∈ rest.head?, ¬ s.IsText) ∧ StaticAll l rest

end

/-! ## 2. What markup shows of a tree -/

mutual

/-- The tree without what its markup does not show: empty texts, and all that stands under texts and
doctypes. -/
def shown : Tree → Tree
  | node (.element e) children => node (.element e) (shownAll children)
  | node .fragment children => node .fragment (shownAll children)
  | node (.text t) _ => leaf (.text t)
  | node (.doctype t) _ => leaf (.doctype t)

/-- The trees on a list without what their markup does not show. -/
def shownAll : List Tree → List Tree
  | [] => []
  | t :: rest => if t.kind = .text [] then shownAll rest else t.shown :: shownAll rest

end

section Shown

variable {l : Library} {layout : Layout} {t : Tree} {rest children : List Tree} {name : Text}

theorem shownAll_cons (h : t.kind ≠ .text []) :
    shownAll (t :: rest) = t.shown :: shownAll rest := by
  rw [shownAll, if_neg h]

/-- No static tree is an empty text. -/
theorem kind_ne_of_static (h : t.Static l) : t.kind ≠ .text [] := by
  obtain ⟨kind, children⟩ := t
  rintro rfl
  exact h.1 rfl

theorem isText_shown : t.shown.IsText ↔ t.IsText := by
  obtain ⟨kind, children⟩ := t
  cases kind <;> exact Iff.rfl

/-- The first of some static trees is shown first. -/
theorem head?_shownAll {ts : List Tree} (h : StaticAll l ts) :
    (shownAll ts).head? = ts.head?.map shown := by
  cases ts with
  | nil => rfl
  | cons t rest =>
    rw [shownAll_cons (kind_ne_of_static h.1)]
    rfl

/-- What is shown of one text: itself, unless it is empty. -/
theorem shownAll_text (body : Text) (below : List Tree) :
    shownAll [node (.text body) below] = if body = [] then [] else [leaf (.text body)] := by
  by_cases hbody : body = []
  · subst hbody
    rfl
  · have hkind : (node (.text body) below).kind ≠ .text [] :=
      fun heq => hbody (NodeKind.text.inj heq)
    rw [if_neg hbody, shownAll_cons hkind]
    rfl

/-- What is shown of the content of a static raw element is canonical. -/
theorem StaticContent.canonical (h : StaticContent name children) :
    CanonicalContent name (shownAll children) := by
  rcases h with rfl | ⟨body, below, rfl, hend⟩
  · exact Or.inl rfl
  · rw [shownAll_text]
    split
    · exact Or.inl rfl
    · next hbody => exact Or.inr ⟨body, rfl, hbody, hend⟩

/-- What is not shown of the content of a static raw element is not printed. -/
theorem StaticContent.printAll (h : StaticContent name children) :
    printAll layout (shownAll children) = printAll layout children := by
  rcases h with rfl | ⟨body, below, rfl, -⟩
  · rfl
  · rw [shownAll_text]
    split
    · next hbody =>
      subst hbody
      cases layout <;> rfl
    · rfl

end Shown

/-! ## 3. What is shown of static trees -/

variable {l : Library}

mutual

theorem canonical_shown : ∀ {t : Tree}, t.Static l → t.shown.Canonical
  | node (.element e) children, ⟨he, _, hpaired, hchildren⟩ => by
    refine ⟨he, ?_, ?_⟩
    · intro h
      rw [hpaired h]
      rfl
    · split at hchildren
      · next hraw =>
        rw [if_pos hraw]
        exact hchildren.canonical
      · next hraw =>
        rw [if_neg hraw]
        exact canonicalAll_shownAll hchildren
  | node .fragment _, h => h.elim
  | node (.text _) _, ⟨hne, hplain⟩ => ⟨hne, hplain, rfl⟩
  | node (.doctype _) _, h => ⟨h, rfl⟩

/-- **What is shown of static trees is canonical.** -/
theorem canonicalAll_shownAll : ∀ {ts : List Tree}, StaticAll l ts → CanonicalAll (shownAll ts)
  | [], _ => trivial
  | t :: rest, ⟨ht, hapart, hrest⟩ => by
    rw [shownAll_cons (kind_ne_of_static ht)]
    refine ⟨canonical_shown ht, ?_, canonicalAll_shownAll hrest⟩
    intro htext s hs hstext
    rw [head?_shownAll hrest] at hs
    obtain ⟨s', hs', rfl⟩ := Option.map_eq_some_iff.mp hs
    exact hapart (isText_shown.mp htext) s' hs' (isText_shown.mp hstext)

end

mutual

theorem normal_shown : ∀ {t : Tree}, t.Static l → t.shown.Each (NodeKind.Normal l)
  | node (.element e) children, ⟨_, he, _, hchildren⟩ => by
    refine ⟨fun e' heq => NodeKind.element.inj heq ▸ he, ?_⟩
    split at hchildren
    · rcases hchildren.canonical with hshown | ⟨body, hshown, -⟩
      · rw [hshown]
        trivial
      · rw [hshown]
        exact ⟨each_leaf nofun, trivial⟩
    · exact normalAll_shownAll hchildren
  | node .fragment _, h => h.elim
  | node (.text _) _, _ => each_leaf nofun
  | node (.doctype _) _, _ => each_leaf nofun

/-- **What is shown of static trees is normal.** -/
theorem normalAll_shownAll :
    ∀ {ts : List Tree}, StaticAll l ts → EachAll (NodeKind.Normal l) (shownAll ts)
  | [], _ => trivial
  | t :: rest, ⟨ht, _, hrest⟩ => by
    rw [shownAll_cons (kind_ne_of_static ht)]
    exact ⟨normal_shown ht, normalAll_shownAll hrest⟩

end

variable {layout : Layout}

mutual

theorem print_shown : ∀ {t : Tree}, t.Static l → t.shown.print layout = t.print layout
  | node (.element e) children, ⟨_, _, hpaired, hchildren⟩ => by
    have hinner : printAll layout (shownAll children) = printAll layout children := by
      split at hchildren
      · exact hchildren.printAll
      · exact printAll_shownAll hchildren
    by_cases hempty : children = []
    · subst hempty
      rfl
    · -- the element has an end tag, so that it does not matter whether a child is shown
      obtain ⟨hvoid, hclosing⟩ := not_or.mp (mt hpaired hempty)
      rw [shown, print, print, hinner]
      simp only [Element.printAround, hvoid, hclosing, Bool.and_false]
  | node .fragment _, h => h.elim
  | node (.text _) _, _ => rfl
  | node (.doctype _) _, _ => rfl

/-- **What is not shown of static trees is not printed**, in no layout. -/
theorem printAll_shownAll :
    ∀ {ts : List Tree}, StaticAll l ts → printAll layout (shownAll ts) = printAll layout ts
  | [], _ => rfl
  | t :: rest, ⟨ht, _, hrest⟩ => by
    rw [shownAll_cons (kind_ne_of_static ht), printAll, printAll, print_shown ht,
      printAll_shownAll hrest]

end

/-- **The markup of static trees is read** as what is shown of them. -/
theorem parse_of_static {ts : List Tree} (h : StaticAll l ts) :
    parse (printAll .verbatim ts) = .ok (shownAll ts) := by
  have hcanonical := canonicalAll_shownAll h
  rw [← printAll_shownAll h]
  exact parse_legible (shapedAll_of_canonical hcanonical) (legibleAll_of_canonical hcanonical)

end Tree

/-! ## 4. Static documents -/

/-- The document can be told from its markup, and nothing in it asks to be rendered. -/
def Document.Static (l : Library) (d : Document) : Prop :=
  ∃ ts, d.tree root = .node .fragment ts ∧ Tree.StaticAll l ts

namespace Engine

variable {e : Engine}

/-- Renders a template, then what came of it, and so on. -/
def renderTimes (e : Engine) : Nat → Text → Except RenderFault Text
  | 0, template => .ok template
  | times + 1, template => (e.render template).bind (e.renderTimes times)

/-- A text that renders to itself does so however often it is rendered. -/
theorem renderTimes_of_fixed {template : Text} (h : e.render template = .ok template)
    (times : Nat) : e.renderTimes times template = .ok template := by
  induction times with
  | zero => rfl
  | succ times ih =>
    rw [renderTimes, h]
    exact ih

/-- **Static markup is rendered as it is.**  Every engine renders the markup of a document that is
static for it to the markup of the same document, and what it makes of the template on the way is
what this shows of the tree, no text and no value changed.  Without compaction the markup comes back
as it was, however often it is rendered. -/
theorem render_of_static {d : Document} (h : d.Static e.library) :
    e.render (d.print .verbatim) = .ok (d.print e.settings.layout) ∧
      (∃ r, e.rendered (d.print .verbatim) = .ok r ∧
        r.tree Document.root = (d.tree Document.root).shown) ∧
      (e.settings.compactWhitespace = false →
        ∀ times, e.renderTimes times (d.print .verbatim) = .ok (d.print .verbatim)) := by
  obtain ⟨ts, htree, hts⟩ := h
  have hprint : ∀ layout, d.print layout = Tree.printAll layout ts := by
    intro layout
    rw [Document.print, htree, Tree.print]
  have hsource : ∀ levels, Siblings.renderSource e.library e.settings.maxDepth levels
      (Tree.printAll .verbatim ts) = .ok (Tree.shownAll ts) :=
    Siblings.renderSource_of_normal (Tree.parse_of_static hts) (Tree.normalAll_shownAll hts)
  have hrender : e.render (d.print .verbatim) = .ok (d.print e.settings.layout) := by
    rw [render_eq, hprint, hprint, hsource, ← Tree.printAll_shownAll hts]
    rfl
  refine ⟨hrender, ?_, ?_⟩
  · have htrees := Render.renderSource_tree e.library e.settings.maxDepth
      e.settings.maxDepth.toNat (d.print .verbatim)
    rw [hprint, hsource] at htrees
    rw [hprint, htree]
    exact exists_of_map_eq_ok htrees
  · intro hoff
    have hlayout : e.settings.layout = .verbatim := by
      rw [Settings.layout, hoff]
      rfl
    rw [hlayout] at hrender
    exact renderTimes_of_fixed hrender

/-- Braces in a value and in a text, an element whose name is the key `X` in another case, and a raw
element around an empty text. -/
def staticSample : Document :=
  .ofTrees
    [.node (.element ⟨['p'], none, none, [⟨['a'], ['{', 'x', '}']⟩], false⟩)
        [.leaf (.text ['\n', '{', 'x', '!', '}'])],
      .leaf (.element ⟨['x'], none, none, [], true⟩),
      .node (.element ⟨"style".toList, none, none, [], false⟩) [.leaf (.text [])]]

theorem render_staticSample : staticSample.Static Render.sampleLibrary ∧
    render ⟨Render.sampleLibrary, ⟨0, true⟩⟩ (staticSample.print .verbatim) =
      .ok (staticSample.print .compact) ∧
    ∀ times, renderTimes ⟨Render.sampleLibrary, ⟨0, false⟩⟩ times (staticSample.print .verbatim) =
      .ok (staticSample.print .verbatim) := by
  have hp : Element.Canonical ⟨['p'], none, none, [⟨['a'], ['{', 'x', '}']⟩], false⟩ := by
    refine ⟨by decide, List.all_eq_true.mp (by decide), fun a ha => ?_, by decide⟩
    obtain rfl := List.mem_singleton.mp ha
    exact ⟨by decide, List.all_eq_true.mp (by decide), by decide, by decide⟩
  have hx : Element.Canonical ⟨['x'], none, none, [], true⟩ :=
    ⟨by decide, List.all_eq_true.mp (by decide), nofun, by decide⟩
  have hstyle : Element.Canonical ⟨"style".toList, none, none, [], false⟩ :=
    ⟨by decide, List.all_eq_true.mp (by decide), nofun, by decide⟩
  have hplain : Lexeme.Plain ['\n', '{', 'x', '!', '}'] :=
    ((((Lexeme.plain_nil.cons rfl).cons rfl).cons rfl).cons rfl).cons rfl
  have h : staticSample.Static Render.sampleLibrary := by
    refine ⟨_, Document.tree_root_ofTrees _, ⟨hp, ⟨rfl, rfl, by decide⟩, nofun, ?_⟩, nofun,
      ⟨hx, ⟨rfl, rfl, by decide⟩, fun _ => rfl, trivial⟩, nofun,
      ⟨hstyle, ⟨rfl, rfl, by decide⟩, nofun, ?_⟩, nofun, trivial⟩
    · rw [if_neg (by decide)]
      exact ⟨⟨by decide, hplain⟩, fun _ => nofun, trivial⟩
    · rw [if_pos (by decide)]
      exact Or.inr ⟨[], [], rfl, Lexeme.holdsNoEnd_of_not_mem (by decide) _⟩
  exact ⟨h, (render_of_static h).1, (render_of_static h).2.2 rfl⟩

end Engine

end Stencil
