/-
# Compact markup

The compact layout trims texts and drops those of which nothing is left.  What it prints of a
document is what any layout prints of the document with these trees (`Tree.compacted`), so compact
markup is stable as soon as it is read back as them.

Ordinary trees are canonical trees, with whatever may stand under texts and in a doctype.  If they
are trimmed they are canonical still, but for two cases.  A doctype that is empty is printed, and
not read.  The content of a raw element that ends in `</` with the name of the element and a blank
that is none of markup is content; trimmed it ends in a space, so that it is the end tag of the
element, and its real end tag stands inside this one.  The name of such a tag has a space in it and
closes nothing (`Tree.parse_ne_of_blocked`).

So the markup is stable exactly if the document has neither (`Document.compact_stable_iff`).
-/
import Stencil.Proofs.Markup.Grammar
import Stencil.Proofs.Markup.Respelling
import Stencil.Proofs.Markup.Trimming

namespace Stencil

/-! ## 1. Ordinary trees -/

namespace Tree

/-- What stands under an ordinary raw element: nothing, or one text that does not hold its end
tag. -/
def OrdinaryContent (name : Text) (children : List Tree) : Prop :=
  children = [] ∨ ∃ body below, children = [node (.text body) below] ∧ body ≠ [] ∧
    Lexeme.HoldsNoEnd name body

mutual

/-- The tree can be told from its markup, as far as its doctypes are not empty.  Under texts and
doctypes anything may stand, since it is not printed. -/
def Ordinary : Tree → Prop
  | node (.element e) children =>
    e.Canonical ∧ (e.isVoid = true ∨ e.selfClosing = true → children = []) ∧
      if isRawName e.name then OrdinaryContent e.name children else OrdinaryAll children
  | node .fragment _ => False
  | node (.text t) _ => t ≠ [] ∧ Lexeme.Plain t
  | node (.doctype t) _ => Text.trim t = t ∧ t.Balanced

/-- The trees on a list are ordinary, and no two texts stand next to each other. -/
def OrdinaryAll : List Tree → Prop
  | [] => True
  | t :: rest => t.Ordinary ∧ (t.IsText → ∀ s ∈ rest.head?, ¬ s.IsText) ∧ OrdinaryAll rest

end

mutual

/-- The tree can be read when its texts are trimmed: no doctype is empty, and no content of a raw
element ends in the end tag that trimming makes. -/
def Trimmable : Tree → Prop
  | node (.element e) children =>
    if isRawName e.name then
      ∀ body below, children = [node (.text body) below] → ¬ Lexeme.EndsOpen e.name body
    else TrimmableAll children
  | node .fragment children => TrimmableAll children
  | node (.text _) _ => True
  | node (.doctype t) _ => t ≠ []

/-- The trees on a list can be read when their texts are trimmed. -/
def TrimmableAll : List Tree → Prop
  | [] => True
  | t :: rest => t.Trimmable ∧ TrimmableAll rest

end

/-! ## 2. Trimmed trees -/

mutual

/-- The tree with its texts trimmed, without those of which nothing is left. -/
def compacted : Tree → Tree
  | node (.element e) children => node (.element e) (compactedAll children)
  | node .fragment children => node .fragment (compactedAll children)
  | node (.text t) _ => leaf (.text (Layout.compacted t))
  | node (.doctype t) _ => leaf (.doctype t)

/-- The trees on a list with their texts trimmed. -/
def compactedAll : List Tree → List Tree
  | [] => []
  | t :: rest =>
    if t.compacted.kind = .text [] then compactedAll rest else t.compacted :: compactedAll rest

end

section Compacted

variable {layout : Layout} {t : Tree} {rest children : List Tree} {name : Text}

theorem isText_compacted : t.compacted.IsText ↔ t.IsText := by
  obtain ⟨kind, children⟩ := t
  cases kind <;> exact Iff.rfl

theorem compactedAll_cons (h : t.compacted.kind ≠ .text []) :
    compactedAll (t :: rest) = t.compacted :: compactedAll rest := by
  rw [compactedAll, if_neg h]

theorem compactedAll_dropped (h : t.compacted.kind = .text []) :
    compactedAll (t :: rest) = compactedAll rest := by
  rw [compactedAll, if_pos h]

/-- Only texts are dropped. -/
theorem kind_compacted_ne (h : ¬ t.IsText) : t.compacted.kind ≠ .text [] := by
  obtain ⟨kind, children⟩ := t
  cases kind with
  | text t => exact absurd trivial h
  | _ => exact nofun

/-- What is not a text stays in front of what follows. -/
theorem head?_compactedAll {s : Tree} (hs : ∀ s' ∈ rest.head?, ¬ s'.IsText)
    (h : s ∈ (compactedAll rest).head?) : ¬ s.IsText := by
  cases rest with
  | nil => exact absurd h nofun
  | cons t rest =>
    have ht := hs t rfl
    rw [compactedAll_cons (kind_compacted_ne ht)] at h
    obtain rfl := Option.some.inj h
    exact mt isText_compacted.mp ht

/-- What is left of one text. -/
theorem compactedAll_text (body : Text) (below : List Tree) :
    compactedAll [node (.text body) below] =
      if Layout.compacted body = [] then [] else [leaf (.text (Layout.compacted body))] := by
  by_cases hbody : Layout.compacted body = []
  · have hdropped : (node (.text body) below).compacted.kind = .text [] :=
      congrArg NodeKind.text hbody
    rw [if_pos hbody, compactedAll_dropped hdropped]
    rfl
  · have hkind : (node (.text body) below).compacted.kind ≠ .text [] :=
      fun heq => hbody (NodeKind.text.inj heq)
    rw [if_neg hbody, compactedAll_cons hkind]
    rfl

/-- A dropped text prints nothing. -/
theorem print_of_dropped (h : t.compacted.kind = .text []) : t.print .compact = [] := by
  obtain ⟨kind, children⟩ := t
  cases kind with
  | text t => exact NodeKind.text.inj h
  | _ => exact absurd h nofun

/-- The trimmed content of a raw element is canonical, unless trimming makes an end tag of it. -/
theorem OrdinaryContent.canonical (h : OrdinaryContent name children)
    (hopen : ∀ body below, children = [node (.text body) below] → ¬ Lexeme.EndsOpen name body) :
    CanonicalContent name (compactedAll children) := by
  rcases h with rfl | ⟨body, below, rfl, -, hend⟩
  · exact Or.inl rfl
  · rw [compactedAll_text]
    split
    · exact Or.inl rfl
    · next hbody =>
      have hkept := Layout.holdsNoEnd_compacted hend (hopen body below rfl)
      exact Or.inr ⟨_, rfl, hbody, hkept⟩

/-- The content of a raw element is printed trimmed. -/
theorem OrdinaryContent.printAll (h : OrdinaryContent name children) :
    printAll layout (compactedAll children) = printAll .compact children := by
  rcases h with rfl | ⟨body, below, rfl, -⟩
  · rfl
  · have hprint : printAll .compact [node (.text body) below] = Layout.compacted body :=
      List.append_nil _
    rw [compactedAll_text, hprint]
    split
    · next hbody => exact hbody.symm
    · exact (List.append_nil _).trans (Layout.apply_compacted layout body)

end Compacted

mutual

theorem canonical_compacted : ∀ {t : Tree}, t.Ordinary → t.Trimmable →
    t.compacted.kind ≠ .text [] → t.compacted.Canonical
  | node (.element e) children, ⟨he, hpaired, hchildren⟩, htrim, _ => by
    rw [Trimmable] at htrim
    refine ⟨he, ?_, ?_⟩
    · intro h
      rw [hpaired h]
      rfl
    · split at hchildren
      · next hraw =>
        rw [if_pos hraw] at htrim ⊢
        exact hchildren.canonical htrim
      · next hraw =>
        rw [if_neg hraw] at htrim ⊢
        exact canonicalAll_compactedAll hchildren htrim
  | node .fragment _, h, _, _ => h.elim
  | node (.text _) _, ⟨_, hplain⟩, _, hkept =>
    ⟨fun h => hkept (congrArg NodeKind.text h), Layout.plain_compacted hplain, rfl⟩
  | node (.doctype _) _, ⟨htrimmed, hbalanced⟩, hne, _ => ⟨⟨hne, htrimmed, hbalanced⟩, rfl⟩

/-- **Ordinary trees are canonical when they are trimmed**, if they can be. -/
theorem canonicalAll_compactedAll :
    ∀ {ts : List Tree}, OrdinaryAll ts → TrimmableAll ts → CanonicalAll (compactedAll ts)
  | [], _, _ => trivial
  | t :: rest, ⟨ht, hapart, hrest⟩, ⟨htrim, htrims⟩ => by
    by_cases hdropped : t.compacted.kind = .text []
    · rw [compactedAll_dropped hdropped]
      exact canonicalAll_compactedAll hrest htrims
    · rw [compactedAll_cons hdropped]
      refine ⟨canonical_compacted ht htrim hdropped, ?_, canonicalAll_compactedAll hrest htrims⟩
      intro htext s hs
      exact head?_compactedAll (hapart (isText_compacted.mp htext)) hs

end

variable {layout : Layout}

mutual

theorem print_compacted : ∀ {t : Tree}, t.Ordinary → t.compacted.print layout = t.print .compact
  | node (.element e) children, ⟨_, hpaired, hchildren⟩ => by
    have hinner : printAll layout (compactedAll children) = printAll .compact children := by
      split at hchildren
      · exact hchildren.printAll
      · exact printAll_compactedAll hchildren
    by_cases hempty : children = []
    · subst hempty
      rfl
    · -- the element has an end tag, so that it does not matter whether a child is dropped
      obtain ⟨hvoid, hclosing⟩ := not_or.mp (mt hpaired hempty)
      rw [compacted, print, print, hinner]
      simp only [Element.printAround, hvoid, hclosing, Bool.and_false]
  | node .fragment _, h => h.elim
  | node (.text t) _, _ => Layout.apply_compacted layout t
  | node (.doctype _) _, _ => rfl

/-- **Trees are printed compactly as what is left of them is printed**, in whatever layout. -/
theorem printAll_compactedAll : ∀ {ts : List Tree}, OrdinaryAll ts →
    printAll layout (compactedAll ts) = printAll .compact ts
  | [], _ => rfl
  | t :: rest, ⟨ht, _, hrest⟩ => by
    by_cases hdropped : t.compacted.kind = .text []
    · rw [compactedAll_dropped hdropped, printAll, print_of_dropped hdropped, List.nil_append,
        printAll_compactedAll hrest]
    · rw [compactedAll_cons hdropped, printAll, printAll, print_compacted ht,
        printAll_compactedAll hrest]

end

/-- **The compact markup of trees that can be trimmed is read**, as what is left of them. -/
theorem parse_compact {ts : List Tree} (h : OrdinaryAll ts) (htrim : TrimmableAll ts) :
    parse (printAll .compact ts) = .ok (compactedAll ts) := by
  have hcanonical := canonicalAll_compactedAll h htrim
  rw [← printAll_compactedAll h]
  exact parse_legible (shapedAll_of_canonical hcanonical) (legibleAll_of_canonical hcanonical)

end Tree

/-! ## 3. What cannot be read -/

/-- However the text is read to its end, an end tag has a space in its name. -/
def Blocked (t : Text) : Prop :=
  ∀ ps, Reads t ps [] → ∃ name, Token.closing name ∈ ps.map Piece.token ∧ ' ' ∈ name

namespace Blocked

variable {t mid : Text} {ps : List Piece}

/-- What is read in front does not help. -/
theorem of_reads (h : Reads t ps mid) (hmid : Blocked mid) : Blocked t := by
  intro qs hqs
  obtain ⟨rs, rfl, hrs⟩ := h.of_complete hqs
  obtain ⟨name, hmem, hspace⟩ := hmid rs hrs
  refine ⟨name, ?_, hspace⟩
  rw [List.map_append]
  exact List.mem_append_right _ hmem

/-- A doctype that is empty is no token. -/
theorem doctype (r : Text) : Blocked ((Lexeme.ofDoctype []).written ++ r) := by
  have hcut : Lexeme.cut ((Lexeme.ofDoctype []).written ++ r) = .ok (Lexeme.ofDoctype [], r) :=
    Lexeme.cut_append (b := []) (by decide) (by decide) r
  intro ps hps
  cases hps with
  | piece _ hcut' _ hmeans _ =>
    obtain ⟨rfl, rfl⟩ := Prod.mk.inj (Except.ok.inj (hcut.symm.trans hcut'))
    exact absurd hmeans nofun
  | raw _ hcut' hraw _ _ _ _ =>
    obtain ⟨rfl, rfl⟩ := Prod.mk.inj (Except.ok.inj (hcut.symm.trans hcut'))
    exact absurd hraw nofun

/-- **An end tag inside another one is part of its name.** -/
theorem endTag {n : Text} {e : Element} (hn : Tag.UsualName n) (he : Tag.UsualName e.name)
    (r : Text) : Blocked ('<' :: '/' :: (n ++ ' ' :: (e.endTag.written ++ r))) := by
  have hname : ∀ c ∈ '<' :: '/' :: e.name, Text.isTagBlank c = false := by
    intro c hc
    simp only [List.mem_cons] at hc
    rcases hc with rfl | rfl | hc
    · decide
    · decide
    · exact he.not_blank c hc
  have hpasses : Lexeme.Passes (['/'] ++ (n ++ ([' '] ++ (['<'] ++ (['/'] ++ e.name))))) :=
    Lexeme.passes_slash.append (hn.passes.append
      ((Lexeme.passes_char (by decide) (by decide)).append
        ((Lexeme.passes_char (by decide) (by decide)).append
          (Lexeme.passes_slash.append he.passes))))
  have hlegible : (Lexeme.tag ('/' :: (n ++ ' ' :: '<' :: '/' :: e.name))).Legible
      (.closing (n ++ ' ' :: '<' :: '/' :: e.name)) := by
    constructor
    · refine Lexeme.cut_written_tag ?_ (by simp) (by simp) hpasses
      obtain ⟨c, more, rfl, halpha⟩ := hn.exists_cons
      change Lexeme.beginsMarkup ('<' :: '/' :: c :: _) = true
      rw [Lexeme.beginsMarkup_lt, List.head?_cons, Option.any_some, halpha]
      simp
    · change Token.ofTag 0 ('/' :: (n ++ ' ' :: '<' :: '/' :: e.name)) = _
      have hend := Text.dropEndWhile_append (n ++ [' ']) (List.cons_ne_nil _ _) hname
      rw [List.append_assoc, List.singleton_append] at hend
      rw [Token.ofTag, if_pos List.head?_cons, List.drop_one, List.tail_cons, hend]
  have hreads := hlegible.reads trivial (Lexeme.rawName?_of_closing hlegible.2) r
  have hwritten : (Lexeme.tag ('/' :: (n ++ ' ' :: '<' :: '/' :: e.name))).written ++ r =
      '<' :: '/' :: (n ++ ' ' :: (e.endTag.written ++ r)) := by
    simp [Lexeme.written, Element.endTag]
  rw [hwritten] at hreads
  intro ps hps
  obtain ⟨rs, rfl, -⟩ := hreads.of_complete hps
  exact ⟨_, List.mem_cons_self, by simp⟩

end Blocked

/-- Names of elements have no space. -/
theorem Piece.Genuine.space_not_mem {p : Piece} (h : p.Genuine) {e : Element}
    (htoken : p.token = .opening e) : ' ' ∉ e.name := by
  obtain ⟨l, -, hmeans⟩ := h
  rw [htoken] at hmeans
  cases hmeans.says with
  | opening _ _ he =>
    rw [(Tag.element_name he).1, Tag.name]
    intro hmem
    exact absurd (List.mem_takeWhile_imp hmem) (by decide)

namespace Tree

/-- **No trees are read from a text in which an end tag has a space in its name.** -/
theorem parse_ne_of_blocked {t : Text} (h : Blocked t) (ts : List Tree) : parse t ≠ .ok ts := by
  intro hparse
  obtain ⟨ps, hreads, hderives⟩ := parse_eq_ok_iff.mp hparse
  obtain ⟨name, hmem, hspace⟩ := h ps hreads
  rcases hderives.of_closing_mem hmem with hvoid | ⟨e, he, hname⟩
  · obtain ⟨n, hn, hsame⟩ := List.any_eq_true.mp hvoid
    have hnone : ∀ n ∈ voidNames, ' ' ∉ n := by decide
    have hfold : Text.sameFold name n = true := (Text.sameFold_comm _ _).trans hsame
    exact hnone n hn (Text.mem_of_sameFold (by decide) (by decide) hfold hspace)
  · obtain ⟨p, hp, htoken⟩ := List.mem_map.mp he
    have hfold : Text.sameFold name e.name = true := (Text.sameFold_comm _ _).trans hname
    refine (hreads.genuine p hp).space_not_mem htoken ?_
    exact Text.mem_of_sameFold (by decide) (by decide) hfold hspace

/-! ## 4. Trees that cannot be trimmed -/

/-- What is not a text is printed as markup. -/
theorem beginsMarkup_of_ordinary {t : Tree} (h : t.Ordinary) (htext : ¬ t.IsText) (r : Text) :
    Lexeme.beginsMarkup (t.print .compact ++ r) = true := by
  obtain ⟨kind, children⟩ := t
  cases kind with
  | element e =>
    obtain ⟨more, hprint⟩ := e.exists_printAround children.isEmpty (printAll .compact children)
    obtain ⟨c, name, hname, halpha⟩ := h.1.usualName.exists_cons
    rw [print, hprint, hname]
    change Lexeme.beginsMarkup ('<' :: c :: _) = true
    rw [Lexeme.beginsMarkup_lt, halpha]
    simp
  | fragment => exact h.elim
  | text t => exact absurd trivial htext
  | doctype t => rfl

/-- A tree that can be trimmed is read, in front of markup if it is a text. -/
theorem exists_reads_compact {t : Tree} (h : t.Ordinary) (htrim : t.Trimmable) {mid : Text}
    (hmid : t.IsText → mid = [] ∨ Lexeme.beginsMarkup mid = true) :
    ∃ ps, Reads (t.print .compact ++ mid) ps mid := by
  by_cases hdropped : t.compacted.kind = .text []
  · rw [print_of_dropped hdropped]
    exact ⟨[], .done⟩
  · have hlegible := legible_of_canonical (canonical_compacted h htrim hdropped)
    have hprint : t.compacted.print .verbatim = t.print .compact := print_compacted h
    rw [← hprint]
    refine ⟨_, reads_of_legible hlegible fun hrun => ?_⟩
    exact hmid (isText_compacted.mp (isText_of_isRun hrun))

/-- An element with children is printed between its tags. -/
theorem print_paired {e : Element} {children : List Tree} (hne : children ≠ []) (layout : Layout) :
    (node (.element e) children).print layout =
      e.startTag.written ++ printAll layout children ++ e.endTag.written := by
  have hform : e.tagForm children.isEmpty = .paired := by
    simp [Element.tagForm, hne]
  rw [print, Element.printAround_eq, hform]

/-- The content of a raw element that trimming makes an end tag of is cut off there. -/
theorem blocked_raw {e : Element} (he : e.Canonical) (hclosing : e.selfClosing = false)
    (hraw : isRawName e.name = true) {body : Text} (hbody : Lexeme.HoldsNoEnd e.name body)
    (hopen : Lexeme.EndsOpen e.name body) (r : Text) :
    Blocked (e.startTag.written ++ (Layout.compacted body ++ (e.endTag.written ++ r))) := by
  obtain ⟨pre, n, hcompacted, hpre, hname⟩ := Layout.compacted_of_endsOpen hraw hbody hopen
  have hsame : Text.sameFold e.name n = true := (Text.sameFold_comm _ _).trans hname
  have hn : Tag.UsualName n :=
    Tag.usualName_of_isRawName ((Token.isRawName_of_sameFold hsame).trans hraw)
  have hstart := he.legible_startTag hclosing
  have hrawName : e.startTag.rawName? = some e.name := by
    rw [Lexeme.rawName?_of_opening hstart.2, if_pos hraw]
  have hends : Lexeme.closesRaw e.name
      ('<' :: '/' :: (n ++ ' ' :: (e.endTag.written ++ r))) = true := by
    rw [Lexeme.closesRaw_of_sameFold hsame]
    have hspace : Lexeme.endsRawName ' ' = true := by decide
    simp [Lexeme.closesRaw, Text.sameFold, hspace]
  have hbreak : Text.breakBefore (Lexeme.closesRaw e.name)
      (pre ++ '<' :: '/' :: (n ++ ' ' :: (e.endTag.written ++ r))) =
        (pre, '<' :: '/' :: (n ++ ' ' :: (e.endTag.written ++ r))) :=
    Text.breakBefore_append_eq
      (fun s hs hsuffix => Lexeme.closesRaw_holdsNoEnd he.usualName.lt_not_mem hpre hs hsuffix)
      (Or.inr hends)
  have hcontent : Layout.compacted body ++ (e.endTag.written ++ r) =
      pre ++ '<' :: '/' :: (n ++ ' ' :: (e.endTag.written ++ r)) := by
    rw [hcompacted]
    simp
  have hne : e.startTag.written ++ (Layout.compacted body ++ (e.endTag.written ++ r)) ≠ [] :=
    List.append_ne_nil_of_left_ne_nil (List.cons_ne_nil _ _) _
  have hcut := Lexeme.cut_append (hstart.beginsMarkup trivial) hstart.1
    (Layout.compacted body ++ (e.endTag.written ++ r))
  rw [List.nil_append, hcontent] at hcut
  rw [hcontent] at hne ⊢
  have hreads := Reads.raw hne hcut hrawName hstart.2 hbreak (List.cons_ne_nil _ _) .done
  exact .of_reads hreads (.endTag hn he.usualName r)

mutual

theorem blocked_of_not_trimmable : ∀ {t : Tree}, t.Ordinary → ¬ t.Trimmable →
    ∀ r, Blocked (t.print .compact ++ r)
  | node (.element e) children, ⟨he, hpaired, hchildren⟩, htrim, r => by
    rw [Trimmable] at htrim
    have hne : children ≠ [] := by
      rintro rfl
      refine htrim ?_
      split
      · exact fun body below heq => absurd heq nofun
      · trivial
    have hclosing : e.selfClosing = false :=
      Bool.eq_false_iff.mpr (not_or.mp (mt hpaired hne)).2
    rw [print_paired hne, List.append_assoc, List.append_assoc]
    by_cases hraw : isRawName e.name = true
    · rw [if_pos hraw] at htrim hchildren
      obtain ⟨body, below, rfl, -, hbody⟩ := hchildren.resolve_left hne
      have hopen : Lexeme.EndsOpen e.name body := by
        by_contra hnot
        refine htrim fun body' below' heq => ?_
        obtain ⟨hkind, -⟩ := Tree.node.inj (List.cons.inj heq).1
        obtain rfl := NodeKind.text.inj hkind
        exact hnot
      have hprint : printAll .compact [node (.text body) below] = Layout.compacted body :=
        List.append_nil _
      rw [hprint]
      exact blocked_raw he hclosing hraw hbody hopen r
    · rw [if_neg hraw] at htrim hchildren
      have hstart := he.legible_startTag hclosing
      have hrawName : e.startTag.rawName? = none := by
        rw [Lexeme.rawName?_of_opening hstart.2, if_neg hraw]
      exact .of_reads (hstart.reads trivial hrawName _)
        (blockedAll_of_not_trimmable hchildren htrim _)
  | node .fragment _, h, _, _ => h.elim
  | node (.text _) _, _, htrim, _ => absurd trivial htrim
  | node (.doctype t) _, _, htrim, r => by
    obtain rfl : t = [] := not_not.mp htrim
    exact .doctype r

/-- **The compact markup of trees that cannot be trimmed is not that of any trees.** -/
theorem blockedAll_of_not_trimmable : ∀ {ts : List Tree}, OrdinaryAll ts → ¬ TrimmableAll ts →
    ∀ r, Blocked (printAll .compact ts ++ r)
  | [], _, htrim, _ => absurd trivial htrim
  | t :: rest, ⟨ht, hapart, hrest⟩, htrim, r => by
    rw [printAll, List.append_assoc]
    by_cases hhead : t.Trimmable
    · have htail : ¬ TrimmableAll rest := fun h => htrim ⟨hhead, h⟩
      have hbehind : t.IsText → Lexeme.beginsMarkup (printAll .compact rest ++ r) = true := by
        intro htext
        cases rest with
        | nil => exact absurd trivial htail
        | cons s rest =>
          rw [printAll, List.append_assoc]
          exact beginsMarkup_of_ordinary hrest.1 (hapart htext s rfl) _
      obtain ⟨ps, hreads⟩ := exists_reads_compact ht hhead fun htext => Or.inr (hbehind htext)
      exact .of_reads hreads (blockedAll_of_not_trimmable hrest htail r)
    · exact blocked_of_not_trimmable ht hhead _

end

/-- **The compact markup of ordinary trees is read if and only if they can be trimmed.** -/
theorem parse_compact_iff {ts : List Tree} (h : OrdinaryAll ts) :
    (∃ us, parse (printAll .compact ts) = .ok us) ↔ TrimmableAll ts := by
  constructor
  · rintro ⟨us, hus⟩
    by_contra htrim
    have hblocked := blockedAll_of_not_trimmable h htrim []
    rw [List.append_nil] at hblocked
    exact parse_ne_of_blocked hblocked us hus
  · intro htrim
    exact ⟨_, parse_compact h htrim⟩

end Tree

/-! ## 5. Documents -/

namespace Document

/-- The document can be told from its markup, as far as its doctypes are not empty. -/
def Ordinary (d : Document) : Prop :=
  ∃ ts, d.tree root = .node .fragment ts ∧ Tree.OrdinaryAll ts

/-- **Compact markup is stable** under reading it and printing it again if and only if the document
can be trimmed: it has no empty doctype, and no raw element whose content ends in an end tag of the
element but for a blank that ends no name. -/
theorem compact_stable_iff {d : Document} (h : d.Ordinary) :
    (∃ d', parse (d.print .compact) = .ok d' ∧ d'.print .compact = d.print .compact) ↔
      (d.tree root).Trimmable := by
  obtain ⟨ts, htree, hts⟩ := h
  have hprint : d.print .compact = Tree.printAll .compact ts := by
    rw [print, htree, Tree.print]
  rw [htree, Tree.Trimmable, hprint]
  constructor
  · rintro ⟨d', hparse, -⟩
    obtain ⟨us, hus, -⟩ := exists_of_map_eq_ok hparse
    exact (Tree.parse_compact_iff hts).mp ⟨us, hus⟩
  · intro htrim
    refine ⟨ofTrees (Tree.compactedAll ts), ?_, ?_⟩
    · rw [parse, Tree.parse_compact hts htrim]
      rfl
    · rw [print, tree_root_ofTrees, Tree.print, Tree.printAll_compactedAll hts]

/-- A text with a blank at its front and a line break at its end, a text of white space, and a raw
element with blanks around its content. -/
def stableSample : Document :=
  ofTrees
    [.node (.element ⟨['p'], none, none, [], false⟩) [.leaf (.text ['\u00a0', 'x', '\n'])],
      .leaf (.text [' ']),
      .node (.element ⟨"style".toList, none, none, [], false⟩)
        [.leaf (.text ['\u00a0', '<', '\u00a0'])]]

theorem compact_stable_stableSample : stableSample.Ordinary ∧
    stableSample.print .compact = "<p> x</p><style> < </style>".toList ∧
    ∃ d', parse (stableSample.print .compact) = .ok d' ∧
      d'.print .compact = stableSample.print .compact := by
  have hp : Element.Canonical ⟨['p'], none, none, [], false⟩ :=
    ⟨by decide, List.all_eq_true.mp (by decide), nofun, by decide⟩
  have hstyle : Element.Canonical ⟨"style".toList, none, none, [], false⟩ :=
    ⟨by decide, List.all_eq_true.mp (by decide), nofun, by decide⟩
  have hx : Lexeme.Plain ['\u00a0', 'x', '\n'] := Lexeme.plain_of_lt_not_mem (by decide)
  have hspace : Lexeme.Plain [' '] := Lexeme.plain_of_lt_not_mem (by decide)
  have h : stableSample.Ordinary := by
    refine ⟨_, tree_root_ofTrees _, ⟨hp, nofun, ?_⟩, nofun, ⟨by decide, hspace⟩, ?_,
      ⟨hstyle, nofun, ?_⟩, nofun, trivial⟩
    · rw [if_neg (by decide)]
      exact ⟨⟨by decide, hx⟩, fun _ => nofun, trivial⟩
    · rintro - s ⟨⟩
      exact id
    · rw [if_pos (by decide)]
      exact Or.inr ⟨_, [], rfl, by decide, Lexeme.holdsNoEnd_of_not_mem (by decide) _⟩
  have htrim : (stableSample.tree root).Trimmable := by
    rw [stableSample, tree_root_ofTrees]
    refine ⟨?_, trivial, ?_, trivial⟩
    · rw [Tree.Trimmable, if_neg (by decide)]
      exact ⟨trivial, trivial⟩
    · rw [Tree.Trimmable, if_pos (by decide)]
      rintro body below heq ⟨before, n, behind, hbody, -⟩
      obtain ⟨hkind, -⟩ := Tree.node.inj (List.cons.inj heq).1
      have hslash : '/' ∈ ['\u00a0', '<', '\u00a0'] := by
        rw [NodeKind.text.inj hkind, hbody]
        simp
      exact absurd hslash (by decide)
  exact ⟨h, by decide +kernel, (compact_stable_iff h).mpr htrim⟩

/-- A script that ends in `</script` and a blank that is none of markup. -/
def openEndSample : Document :=
  ofTrees [.node (.element ⟨"script".toList, none, none, [], false⟩)
    [.leaf (.text "x</script\u00a0".toList)]]

/-- The document is ordinary and is what its markup is read as, but its compact markup has a
fault. -/
theorem not_compact_stable_openEndSample : openEndSample.Ordinary ∧
    parse (openEndSample.print .verbatim) = .ok openEndSample ∧
    parse (openEndSample.print .compact) =
      .error (.mismatched "script".toList "script </script".toList 9) ∧
    ¬ ∃ d', parse (openEndSample.print .compact) = .ok d' ∧
      d'.print .compact = openEndSample.print .compact := by
  have hscript : Element.Canonical ⟨"script".toList, none, none, [], false⟩ :=
    ⟨by decide, List.all_eq_true.mp (by decide), nofun, by decide⟩
  have hbody : Lexeme.HoldsNoEnd "script".toList "x</script\u00a0".toList :=
    Lexeme.holdsNoEnd_of_drop (by decide)
  have h : openEndSample.Ordinary := by
    refine ⟨_, tree_root_ofTrees _, ⟨hscript, nofun, ?_⟩, nofun, trivial⟩
    rw [if_pos (by decide)]
    exact Or.inr ⟨_, [], rfl, by decide, hbody⟩
  have hfault : parse (openEndSample.print .compact) =
      .error (.mismatched "script".toList "script </script".toList 9) := by
    decide +kernel
  refine ⟨h, by decide +kernel, hfault, ?_⟩
  rintro ⟨d', hparse, -⟩
  exact absurd (hfault.symm.trans hparse) nofun

end Document

end Stencil
