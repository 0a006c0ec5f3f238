/-
# Legible trees

A tree is printed piece by piece: start tags, end tags, doctypes, texts.  It is legible if each of
these pieces, looked at alone, is cut off whole and read as what it was printed for
(`Lexeme.Legible`), and if the pieces cannot be mistaken for others where they meet: no two runs of
text stand next to each other, and the content of a raw element does not hold its end tag.

This is the whole of what printing and reading ask of each other.  The markup of legible trees is
read as their pieces (`reads_legible`) and the pieces build the trees (`nest_legible`), so legible
trees come back as they were (`parse_legible`).
-/
import Stencil.Proofs.Markup.Each
import Stencil.Proofs.Markup.Reads
import Stencil.Markup.Print

namespace Stencil

/-! ## 1. Legible pieces -/

namespace Lexeme

variable {l : Lexeme} {token : Token}

/-- The piece, as it is written, is cut off whole and has the meaning. -/
def Legible (l : Lexeme) (token : Token) : Prop := cut l.written = .ok (l, []) ∧ l.Means token

theorem Legible.beginsMarkup (h : l.Legible token) (hmarkup : l.IsMarkup) :
    beginsMarkup l.written = true := by
  rcases isMarkup_or_of_cut h.1 with ⟨hbegins, -⟩ | ⟨-, heq, -⟩
  · exact hbegins
  · rw [heq] at hmarkup
    exact hmarkup.elim

/-- **A legible piece of markup is read in front of anything.** -/
theorem Legible.reads (h : l.Legible token) (hmarkup : l.IsMarkup) (hraw : l.rawName? = none)
    (rest : Text) : Reads (l.written ++ rest) [⟨l.written, token⟩] rest := by
  have hbegins := h.beginsMarkup hmarkup
  refine .piece ?_ (cut_append hbegins h.1 rest) hraw h.2 .done
  rw [eq_cons_of_beginsMarkup hbegins]
  exact List.cons_ne_nil _ _

/-- A run of text is read in front of markup, and at the end. -/
theorem reads_plain {t rest : Text} (ht : Plain t) (hne : t ≠ [])
    (hrest : rest = [] ∨ Lexeme.beginsMarkup rest = true) :
    Reads (t ++ rest) [⟨t, .text t⟩] rest :=
  .piece (List.append_ne_nil_of_left_ne_nil hne rest) (cut_plain ht hrest hne) rfl rfl .done

end Lexeme

/-! ## 2. The pieces of trees -/

/-- How the tags of an element are written. -/
inductive TagForm where
  /-- As `<name/>`. -/
  | empty
  /-- As `<name>` alone. -/
  | bare
  /-- As `<name>` and `</name>`. -/
  | paired

namespace Element

/-- What stands between `<` and the end of a start tag. -/
def content (e : Element) : Text :=
  e.name ++ (e.declares.map (printDirective declarationKeyword)).getD [] ++
    (e.branch.map Branch.print).getD [] ++ e.attributes.flatMap Attribute.print

theorem printOpening_eq (e : Element) : e.printOpening = '<' :: e.content := rfl

/-- The form of the tags of an element, by whether anything stands under it. -/
def tagForm (e : Element) (childless : Bool) : TagForm :=
  if childless && e.selfClosing then .empty
  else if childless && e.isVoid then .bare
  else .paired

/-- The one tag of an element that is written as `<name/>`. -/
def emptyTag (e : Element) : Lexeme := .tag (e.content ++ ['/'])

def startTag (e : Element) : Lexeme := .tag e.content

def endTag (e : Element) : Lexeme := .tag ('/' :: e.name)

section TagForm

variable {e : Element} {childless : Bool}

theorem tagForm_empty (h : e.tagForm childless = .empty) :
    childless = true ∧ e.selfClosing = true := by
  unfold tagForm at h
  split at h
  · next hempty => exact Bool.and_eq_true_iff.mp hempty
  · split at h <;> exact absurd h nofun

theorem tagForm_bare (h : e.tagForm childless = .bare) :
    childless = true ∧ e.isVoid = true := by
  unfold tagForm at h
  split at h
  · exact absurd h nofun
  · split at h
    · next hbare => exact Bool.and_eq_true_iff.mp hbare
    · exact absurd h nofun

/-- A void element has an end tag only if something stands under it. -/
theorem tagForm_paired (h : e.tagForm childless = .paired) (hchildless : childless = true) :
    e.isVoid = false := by
  subst hchildless
  unfold tagForm at h
  split at h
  · exact absurd h nofun
  · split at h
    · exact absurd h nofun
    · next hbare => simpa using hbare

end TagForm

theorem printAround_eq (e : Element) (childless : Bool) (inner : Text) :
    e.printAround childless inner =
      match e.tagForm childless with
      | .empty => e.emptyTag.written
      | .bare => e.startTag.written
      | .paired => e.startTag.written ++ inner ++ e.endTag.written := by
  unfold printAround tagForm
  split
  · simp [printOpening_eq, emptyTag, Lexeme.written]
  · split
    · simp [printOpening_eq, startTag, Lexeme.written]
    · simp [printOpening_eq, printClosing, startTag, endTag, Lexeme.written]

/-- An element is printed from `<` and its name on. -/
theorem exists_printAround (e : Element) (childless : Bool) (inner : Text) : ∃ more,
    e.printAround childless inner = '<' :: (e.name ++ more) := by
  have hcontent : ∃ more, e.content = e.name ++ more := by
    rw [content, List.append_assoc, List.append_assoc]
    exact ⟨_, rfl⟩
  obtain ⟨more, hcontent⟩ := hcontent
  rw [printAround, printOpening_eq, hcontent]
  split
  · rw [List.cons_append, List.append_assoc]
    exact ⟨_, rfl⟩
  · split
    · rw [List.cons_append, List.append_assoc]
      exact ⟨_, rfl⟩
    · rw [List.append_assoc, List.cons_append, List.append_assoc]
      exact ⟨_, rfl⟩

end Element

/-- A doctype as it is printed. -/
def Lexeme.ofDoctype (t : Text) : Lexeme := .doctype (doctypeKeyword ++ ' ' :: t)

namespace Tree

mutual

/-- The pieces that a tree is printed in. -/
def pieces : Tree → List Piece
  | node (.element e) children =>
    match e.tagForm children.isEmpty with
    | .empty => [⟨e.emptyTag.written, .empty e⟩]
    | .bare => [⟨e.startTag.written, .opening e⟩]
    | .paired =>
      ⟨e.startTag.written, .opening e⟩ ::
        (piecesAll children ++ [⟨e.endTag.written, .closing e.name⟩])
  | node .fragment children => piecesAll children
  | node (.text t) _ => [⟨t, .text t⟩]
  | node (.doctype t) _ => [⟨(Lexeme.ofDoctype t).written, .doctype t⟩]

/-- The pieces that the trees on a list are printed in. -/
def piecesAll : List Tree → List Piece
  | [] => []
  | t :: rest => t.pieces ++ piecesAll rest

end

mutual

/-- The pieces of a tree make up its markup. -/
theorem text_pieces : ∀ t : Tree, Piece.text t.pieces = t.print .verbatim
  | node (.element e) children => by
    rw [pieces, print, Element.printAround_eq]
    cases e.tagForm children.isEmpty with
    | paired =>
      have hinner := text_piecesAll children
      rw [Piece.text] at hinner
      simp [Piece.text, hinner]
    | _ => simp [Piece.text]
  | node .fragment children => by
    rw [pieces, print, text_piecesAll children]
  | node (.text t) _ => by simp [pieces, print, Piece.text, Layout.apply]
  | node (.doctype t) _ => by
    simp [pieces, print, Piece.text, Lexeme.ofDoctype, Lexeme.written, Lexeme.doctypeKeyword]

theorem text_piecesAll : ∀ ts : List Tree, Piece.text (piecesAll ts) = printAll .verbatim ts
  | [] => rfl
  | t :: rest => by
    rw [piecesAll, printAll, ← text_pieces t, ← text_piecesAll rest, Piece.text, Piece.text,
      Piece.text, List.flatMap_append]

end

/-- Trees that stand next to each other are printed one behind the other. -/
theorem printAll_append (layout : Layout) (ss ts : List Tree) :
    printAll layout (ss ++ ts) = printAll layout ss ++ printAll layout ts := by
  induction ss with
  | nil => rfl
  | cons s ss ih => rw [List.cons_append, printAll, printAll, ih, List.append_assoc]

/-! ## 3. Legible trees -/

/-- The tree is a run of text, which only markup ends. -/
def IsRun : Tree → Prop
  | node (.text t) _ => Lexeme.Plain t
  | _ => False

/-- The content of a raw element: nothing, or one text in which the end tag does not begin. -/
def RawContent (e : Element) (children : List Tree) : Prop :=
  children = [] ∨ ∃ body, children = [leaf (.text body)] ∧ body ≠ [] ∧
    Text.breakBefore (Lexeme.closesRaw e.name) (body ++ e.endTag.written) =
      (body, e.endTag.written)

mutual

/-- The pieces of the tree are read as what they were printed for. -/
def Legible : Tree → Prop
  | node (.element e) children =>
    match e.tagForm children.isEmpty with
    | .empty => e.emptyTag.Legible (.empty e)
    | .bare => e.startTag.Legible (.opening e)
    | .paired =>
      e.startTag.Legible (.opening e) ∧ e.endTag.Legible (.closing e.name) ∧
        if isRawName e.name then RawContent e children else LegibleAll children
  | node .fragment _ => False
  | node (.text t) _ => t ≠ [] ∧ ∃ l : Lexeme, l.written = t ∧ l.Legible (.text t)
  | node (.doctype t) _ => (Lexeme.ofDoctype t).Legible (.doctype t)

/-- The pieces of the trees on a list are read as what they were printed for, also where one tree
ends and the next begins. -/
def LegibleAll : List Tree → Prop
  | [] => True
  | t :: rest => t.Legible ∧ (t.IsRun → ∀ s ∈ rest.head?, ¬ s.IsRun) ∧ LegibleAll rest

end

/-! ## 4. Legible trees are read as their pieces -/

theorem beginsMarkup_startTag {e : Element} (h : e.startTag.Legible (.opening e)) (t : Text) :
    Lexeme.beginsMarkup (e.startTag.written ++ t) = true :=
  Lexeme.beginsMarkup_append (h.beginsMarkup trivial) t

/-- A legible tree begins with markup, unless it is a run of text. -/
theorem beginsMarkup_of_legible {t : Tree} (h : t.Legible) (hrun : ¬ t.IsRun) :
    Lexeme.beginsMarkup (t.print .verbatim) = true := by
  obtain ⟨kind, children⟩ := t
  cases kind with
  | fragment => exact h.elim
  | doctype t =>
    rw [Legible] at h
    rw [← text_pieces, pieces]
    simpa [Piece.text] using h.beginsMarkup trivial
  | text t =>
    obtain ⟨hne, l, rfl, h⟩ := h
    rw [print, Layout.apply]
    refine h.beginsMarkup ?_
    rcases Lexeme.isMarkup_or_of_cut h.1 with ⟨-, hmarkup⟩ | ⟨-, heq, -⟩
    · exact hmarkup
    · have hcut := h.1
      rw [heq] at hcut hrun
      exact absurd (Lexeme.plain_of_cut ((congrArg _ (List.append_nil _)).trans hcut)).1 hrun
  | element e =>
    rw [Legible] at h
    rw [print, Element.printAround_eq]
    cases hform : e.tagForm children.isEmpty with
    | empty =>
      rw [hform] at h
      exact h.beginsMarkup trivial
    | bare =>
      rw [hform] at h
      exact h.beginsMarkup trivial
    | paired =>
      rw [hform] at h
      dsimp only
      rw [List.append_assoc]
      exact beginsMarkup_startTag h.1 _

/-- What stands behind a run of text is markup, or nothing. -/
theorem beginsMarkup_of_legibleAll {ts : List Tree} (h : LegibleAll ts)
    (hhead : ∀ s ∈ ts.head?, ¬ s.IsRun) {rest : Text}
    (hrest : rest = [] ∨ Lexeme.beginsMarkup rest = true) :
    printAll .verbatim ts ++ rest = [] ∨
      Lexeme.beginsMarkup (printAll .verbatim ts ++ rest) = true := by
  cases ts with
  | nil => exact hrest
  | cons t ts =>
    right
    rw [printAll, List.append_assoc]
    exact Lexeme.beginsMarkup_append (beginsMarkup_of_legible h.1 (hhead t rfl)) _

/-- What follows an end tag does not matter for the element that it closes. -/
theorem closesRaw_endTag {e : Element} (s rest : Text) :
    Lexeme.closesRaw e.name (s ++ (e.endTag.written ++ rest)) =
      Lexeme.closesRaw e.name (s ++ e.endTag.written) := by
  rw [← List.append_assoc, Lexeme.closesRaw_append]
  simp only [Element.endTag, Lexeme.written, List.length_append, List.length_cons, List.length_nil]
  omega

/-- The content of a raw element is read up to its end tag. -/
theorem reads_raw {e : Element} {children : List Tree} (hraw : isRawName e.name = true)
    (hstart : e.startTag.Legible (.opening e)) (hend : e.endTag.Legible (.closing e.name))
    (hcontent : RawContent e children) (rest : Text) :
    Reads (e.startTag.written ++ printAll .verbatim children ++ e.endTag.written ++ rest)
      (⟨e.startTag.written, .opening e⟩ ::
        (piecesAll children ++ [⟨e.endTag.written, .closing e.name⟩])) rest := by
  have hbegins := hstart.beginsMarkup trivial
  have hname : e.startTag.rawName? = some e.name := by
    rw [Lexeme.rawName?_of_opening hstart.2, if_pos hraw]
  have hclose : Reads (e.endTag.written ++ rest) [⟨e.endTag.written, .closing e.name⟩] rest :=
    hend.reads trivial (Lexeme.rawName?_of_closing hend.2) rest
  have hne : ∀ t : Text, e.startTag.written ++ t ≠ [] := fun t => by
    rw [Element.startTag, Lexeme.written]
    simp
  have hcut : ∀ t : Text, Lexeme.cut (e.startTag.written ++ t) = .ok (e.startTag, t) :=
    fun t => Lexeme.cut_append hbegins hstart.1 t
  have hends : Lexeme.closesRaw e.name (e.endTag.written ++ rest) = true :=
    Lexeme.closesRaw_written e.name rest
  have hcloseNe : e.endTag.written ++ rest ≠ [] := by
    rw [Element.endTag, Lexeme.written]
    simp
  rw [List.append_assoc, List.append_assoc]
  rcases hcontent with rfl | ⟨body, rfl, hbody, hbreak⟩
  · have hempty : Text.breakBefore (Lexeme.closesRaw e.name) (e.endTag.written ++ rest) =
        ([], e.endTag.written ++ rest) :=
      Text.breakBefore_append_eq (fun s hs hsuffix => absurd (List.suffix_nil.mp hsuffix) hs)
        (Or.inr hends)
    exact .raw (hne _) (hcut _) hname hstart.2 hempty hcloseNe hclose
  · have hfull : Text.breakBefore (Lexeme.closesRaw e.name)
        (body ++ (e.endTag.written ++ rest)) = (body, e.endTag.written ++ rest) := by
      refine Text.breakBefore_append_eq (fun s hs hsuffix => ?_) (Or.inr hends)
      rw [closesRaw_endTag]
      exact Text.not_of_breakBefore_eq hbreak hs hsuffix
    have hreads := Reads.raw (hne _) (hcut _) hname hstart.2 hfull hcloseNe hclose
    rw [Piece.ofRaw, if_neg hbody] at hreads
    simpa [printAll, print, leaf, Layout.apply, piecesAll, pieces] using hreads

mutual

/-- The markup of a legible tree is read as its pieces. -/
theorem reads_of_legible : ∀ {t : Tree}, t.Legible → ∀ {rest : Text},
    (t.IsRun → rest = [] ∨ Lexeme.beginsMarkup rest = true) →
      Reads (t.print .verbatim ++ rest) t.pieces rest
  | node (.element e) children, h, rest, _ => by
    rw [Legible] at h
    rw [print, Element.printAround_eq, pieces]
    cases hform : e.tagForm children.isEmpty with
    | empty =>
      rw [hform] at h
      exact h.reads trivial (Lexeme.rawName?_of_empty h.2) rest
    | bare =>
      rw [hform] at h
      refine h.reads trivial ?_ rest
      have hvoid := (Element.tagForm_bare hform).2
      rw [Lexeme.rawName?_of_opening h.2,
        if_neg (by rw [isRawName_of_isVoidName hvoid]; exact Bool.false_ne_true)]
    | paired =>
      rw [hform] at h
      obtain ⟨hstart, hend, hchildren⟩ := h
      by_cases hraw : isRawName e.name = true
      · rw [if_pos hraw] at hchildren
        exact reads_raw hraw hstart hend hchildren rest
      · rw [if_neg hraw] at hchildren
        have hname : e.startTag.rawName? = none := by
          rw [Lexeme.rawName?_of_opening hstart.2, if_neg hraw]
        have hbegins := hend.beginsMarkup trivial
        have hinner := readsAll_of_legible hchildren
          (Or.inr (Lexeme.beginsMarkup_append hbegins rest))
        have hclose := hend.reads trivial (Lexeme.rawName?_of_closing hend.2) rest
        rw [List.append_assoc, List.append_assoc]
        exact (hstart.reads trivial hname _).append (hinner.append hclose)
  | node .fragment _, h, _, _ => h.elim
  | node (.text t) children, h, rest, hrest => by
    obtain ⟨hne, l, rfl, hlegible⟩ := h
    rw [print, Layout.apply, pieces]
    rcases Lexeme.isMarkup_or_of_cut hlegible.1 with ⟨-, hmarkup⟩ | ⟨-, heq, -⟩
    · exact hlegible.reads hmarkup (Lexeme.rawName?_of_text hlegible.2) rest
    · have hplain : Lexeme.Plain l.written := by
        have hcut := hlegible.1
        rw [heq] at hcut ⊢
        exact (Lexeme.plain_of_cut ((congrArg _ (List.append_nil _)).trans hcut)).1
      exact Lexeme.reads_plain hplain hne (hrest hplain)
  | node (.doctype t) children, h, rest, _ => by
    rw [Legible] at h
    have hprint : (node (.doctype t) children).print .verbatim =
        (Lexeme.ofDoctype t).written := by
      rw [← text_pieces, pieces]
      simp [Piece.text]
    rw [hprint, pieces]
    exact h.reads trivial rfl rest

/-- **The markup of legible trees is read as their pieces**, in front of markup and at the end. -/
theorem readsAll_of_legible : ∀ {ts : List Tree}, LegibleAll ts → ∀ {rest : Text},
    (rest = [] ∨ Lexeme.beginsMarkup rest = true) →
      Reads (printAll .verbatim ts ++ rest) (piecesAll ts) rest
  | [], _, _, _ => .done
  | t :: ts, ⟨ht, hapart, hts⟩, rest, hrest => by
    rw [printAll, piecesAll, List.append_assoc]
    have hhead := reads_of_legible ht fun hrun =>
      beginsMarkup_of_legibleAll hts (hapart hrun) hrest
    exact hhead.append (readsAll_of_legible hts hrest)

end

/-! ## 5. Pieces build their trees -/

open Token (nest)

mutual

/-- The tokens of a tree's pieces build the tree. -/
theorem nest_pieces {fault : Option MarkupFault} : ∀ {t : Tree}, t.Each Shaped →
    ∀ (opened : List OpenElement) (done : List Tree) (p : Nat) (more : List (Nat × Token)),
      nest fault opened done (Piece.tokensAt p t.pieces ++ more) =
        nest fault opened (t :: done) more
  | node (.element e) children, ⟨hshape, hchildren⟩, opened, done, p, more => by
    rw [pieces]
    cases hform : e.tagForm children.isEmpty with
    | empty =>
      obtain rfl := List.isEmpty_iff.mp (Element.tagForm_empty hform).1
      rfl
    | bare =>
      obtain ⟨hempty, hvoid⟩ := Element.tagForm_bare hform
      obtain rfl := List.isEmpty_iff.mp hempty
      simp only [Piece.tokensAt, List.cons_append, List.nil_append]
      exact Token.nest_of_builds (.bare hvoid)
    | paired =>
      have hvoid : e.isVoid = false := by
        by_cases hempty : children = []
        · exact Element.tagForm_paired hform (List.isEmpty_iff.mpr hempty)
        · obtain ⟨e', heq, hvoid, -⟩ := hshape.paired_of_children hempty
          exact NodeKind.element.inj heq ▸ hvoid
      simp only [Piece.tokensAt, List.cons_append]
      rw [Token.nest_of_builds (.opening hvoid), Piece.tokensAt_append, List.append_assoc,
        nest_piecesAll hchildren]
      simp only [Piece.tokensAt, List.cons_append, List.nil_append, List.append_nil]
      rw [Token.nest_of_builds (.closing hvoid (beq_self_eq_true _)), List.reverse_reverse]
  | node .fragment _, ⟨hshape, _⟩, _, _, _, _ => absurd rfl hshape.not_fragment
  | node (.text t) children, ⟨hshape, _⟩, opened, done, p, more => by
    obtain rfl := hshape.children_eq_nil rfl
    rfl
  | node (.doctype t) children, ⟨hshape, _⟩, opened, done, p, more => by
    obtain rfl := hshape.children_eq_nil rfl
    rfl

/-- **The tokens of the pieces of trees build the trees.** -/
theorem nest_piecesAll {fault : Option MarkupFault} : ∀ {ts : List Tree}, EachAll Shaped ts →
    ∀ (opened : List OpenElement) (done : List Tree) (p : Nat) (more : List (Nat × Token)),
      nest fault opened done (Piece.tokensAt p (piecesAll ts) ++ more) =
        nest fault opened (ts.reverse ++ done) more
  | [], _, _, _, _, _ => rfl
  | t :: ts, ⟨ht, hts⟩, opened, done, p, more => by
    rw [piecesAll, Piece.tokensAt_append, List.append_assoc, nest_pieces ht, nest_piecesAll hts,
      List.reverse_cons, List.append_assoc, List.singleton_append]

end

/-- Trees whose markup is read as their pieces are read back. -/
theorem parse_of_scan {ts : List Tree} (hshape : EachAll Shaped ts)
    (hscan : Token.scan (printAll .verbatim ts) = ⟨Piece.tokensAt 0 (piecesAll ts), none⟩) :
    Tree.parse (printAll .verbatim ts) = .ok ts := by
  have hnest := @nest_piecesAll none ts hshape [] [] 0 []
  rw [List.append_nil, List.append_nil] at hnest
  rw [parse, hscan]
  dsimp only
  rw [hnest, nest, List.reverse_reverse]

/-- **Legible trees are read back as they were.** -/
theorem parse_legible {ts : List Tree} (hshape : EachAll Shaped ts) (h : LegibleAll ts) :
    Tree.parse (printAll .verbatim ts) = .ok ts := by
  have hreads := readsAll_of_legible h (Or.inl rfl)
  rw [List.append_nil] at hreads
  exact parse_of_scan hshape (scan_of_reads hreads 0)

end Tree

end Stencil
