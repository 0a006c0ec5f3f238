/-
# Markup that is stable

Markup is stable if it is read and printed again as it was.  Legible trees have stable markup, since
they are read back.  The converse holds as well: stable markup is the markup of legible trees
(`Tree.stable_iff`), so that legibility, which looks at one piece after the other, says exactly
which markup survives.

For the converse, the trees that stable markup is read as must be shown to be legible.  Their pieces
are the pieces of the source (`Piece.Respelled.eq_of_text`), so all that is left is to look at these
alone: what is cut off a source is cut off when nothing follows (`cut_alone`), and so a reading can
be taken apart piece by piece, along the tree (`legible_of_stand`).

Not all that is read has stable markup: a comment may stand between two texts that are something
else without it.
-/
import Stencil.Proofs.Document.Edits
import Stencil.Proofs.Markup.Grammar
import Stencil.Proofs.Markup.Respelling

namespace Stencil

/-! ## 1. Cuts alone -/

namespace Text

/-- A mark that was found is found where the text ends with it. -/
theorem breakOn?_alone {mark t a b : Text} (hmark : mark ≠ [])
    (h : breakOn? mark t = some (a, b)) : breakOn? mark (a ++ mark) = some (a, []) := by
  unfold breakOn? at h
  cases hcut : breakBefore mark.isPrefixOf t with
  | mk before found =>
    rw [hcut] at h
    cases found with
    | nil => exact absurd h nofun
    | cons c tail =>
      obtain ⟨rfl, -⟩ := Prod.mk.inj (Option.some.inj h)
      obtain ⟨rest, hrest⟩ := List.isPrefixOf_iff_prefix.mp
        (holds_of_breakBefore hcut (List.cons_ne_nil c tail))
      have hself : mark.isPrefixOf mark = true :=
        List.isPrefixOf_iff_prefix.mpr (List.prefix_refl mark)
      have halone : breakBefore mark.isPrefixOf (before ++ mark) = (before, mark) := by
        refine breakBefore_append_eq (fun s hs hsuffix => ?_) (Or.inr hself)
        have happend := append_of_breakBefore hcut
        rw [← happend] at hcut
        have hpassed := not_of_breakBefore_eq hcut hs hsuffix
        rw [← hrest, ← List.append_assoc, isPrefixOf_append_iff (by simp)] at hpassed
        exact hpassed
      unfold breakOn?
      rw [halone]
      cases mark with
      | nil => exact absurd rfl hmark
      | cons d mark => simp

end Text

namespace Lexeme

variable {t a b : Text} {l : Lexeme}

theorem breakTag_alone {quote : Option Char} (h : breakTag quote t = some (a, b)) :
    breakTag quote (a ++ ['>']) = some (a, []) := by
  induction t generalizing quote a with
  | nil => cases quote <;> exact absurd h (by simp [breakTag])
  | cons c t ih =>
    cases quote with
    | none =>
      rw [breakTag] at h
      split at h
      · obtain ⟨rfl, rfl⟩ := Prod.mk.inj (Option.some.inj h)
        rfl
      · next hc =>
        obtain ⟨⟨a', b'⟩, htail, heq⟩ := Option.map_eq_some_iff.mp h
        obtain ⟨rfl, rfl⟩ := Prod.mk.inj heq
        rw [List.cons_append, breakTag, if_neg hc, ih htail]
        rfl
    | some q =>
      rw [breakTag] at h
      obtain ⟨⟨a', b'⟩, htail, heq⟩ := Option.map_eq_some_iff.mp h
      obtain ⟨rfl, rfl⟩ := Prod.mk.inj heq
      rw [List.cons_append, breakTag, ih htail]
      rfl

theorem breakBalanced_alone {depth : Nat} (h : breakBalanced depth t = some (a, b)) :
    breakBalanced depth (a ++ ['>']) = some (a, []) := by
  induction t generalizing depth a with
  | nil => exact absurd h (by simp [breakBalanced])
  | cons c t ih =>
    rw [breakBalanced] at h
    split at h
    · next hc =>
      obtain ⟨rfl, rfl⟩ := Prod.mk.inj (Option.some.inj h)
      simp [breakBalanced, hc.2]
    · next hc =>
      obtain ⟨⟨a', b'⟩, htail, heq⟩ := Option.map_eq_some_iff.mp h
      obtain ⟨rfl, rfl⟩ := Prod.mk.inj heq
      rw [List.cons_append, breakBalanced, if_neg hc]
      exact Option.map_eq_some_iff.mpr ⟨_, ih htail, rfl⟩

theorem Declares.alone (h : Declares t l b) :
    ∃ u, l.written = '<' :: '!' :: u ∧ Declares u l [] := by
  cases h with
  | @comment _ _ body _ _ hbreak =>
    exact ⟨'-' :: '-' :: (body ++ ['-', '-', '>']), by simp [written],
      .comment (by simp [Text.after?]) (Text.breakOn?_alone (List.cons_ne_nil _ _) hbreak)⟩
  | @cdata _ _ body _ _ hbreak =>
    exact ⟨'[' :: (['C', 'D', 'A', 'T', 'A', '['] ++ (body ++ [']', ']', '>'])), by simp [written],
      .cdata (by simp [Text.after?]) (Text.breakOn?_alone (List.cons_ne_nil _ _) hbreak)⟩
  | @doctype _ content _ hhead hbreak hkeyword =>
    refine ⟨content ++ ['>'], by simp [written], .doctype ?_ (breakBalanced_alone hbreak) hkeyword⟩
    cases content with
    | nil => exact absurd hkeyword (by decide)
    | cons c content =>
      rw [← append_of_breakBalanced hbreak] at hhead
      exact hhead

theorem cutInstruction_alone (h : cutInstruction t = .ok (l, b)) :
    ∃ u, l.written = '<' :: '?' :: u ∧ cutInstruction u = .ok (l, []) := by
  obtain ⟨body, hhead, hbreak, rfl⟩ := cutInstruction_eq_ok.mp h
  refine ⟨body ++ ['?', '>'], by simp [written], cutInstruction_eq_ok.mpr ⟨body, ?_,
    Text.breakOn?_alone (List.cons_ne_nil _ _) hbreak, rfl⟩⟩
  rw [← Text.append_of_breakOn? hbreak] at hhead
  cases body with
  | nil => decide
  | cons c body => exact hhead

theorem cutTag_alone (h : cutTag t = .ok (l, b)) :
    ∃ content, l = tag content ∧ cutTag (content ++ ['>']) = .ok (l, []) := by
  obtain ⟨content, hbreak, rfl⟩ := cutTag_eq_ok.mp h
  exact ⟨content, rfl, cutTag_eq_ok.mpr ⟨content, breakTag_alone hbreak, rfl⟩⟩

/-- A part of the source that reaches behind the second character behind a `<`, or that ends in a
`>`, opens what the source opens. -/
theorem beginsMarkup_of_append {content r : Text}
    (h : beginsMarkup ((tag content).written ++ r) = true) :
    beginsMarkup (tag content).written = true := by
  have hwritten : (tag content).written = '<' :: (content ++ ['>']) := rfl
  rw [hwritten] at h ⊢
  match content, h with
  | [], h => exact absurd h (by simp [beginsMarkup_lt])
  | [c], h =>
    rw [List.singleton_append, List.cons_append, List.cons_append, beginsMarkup_lt] at h
    rw [List.singleton_append, beginsMarkup_lt]
    exact h
  | c :: d :: content, h =>
    rw [List.cons_append, List.cons_append, List.cons_append, List.cons_append,
      List.cons_append, beginsMarkup_lt] at h
    rw [List.cons_append, List.cons_append, beginsMarkup_lt]
    exact h

/-- **What is cut off a text that begins with markup is cut off alone.** -/
theorem cut_alone (hbegins : beginsMarkup t = true) (h : cut t = .ok (l, b)) :
    cut l.written = .ok (l, []) := by
  have hwritten := (cut_written (fun hnil => by simp [hnil, beginsMarkup] at hbegins) h).1
  unfold cut at h
  rw [if_pos hbegins] at h
  split at h
  · obtain ⟨u, hu, hcut⟩ := (cutDeclaration_eq_ok.mp h).alone
    rw [hu, cut_declaration, cutDeclaration_eq_ok.mpr hcut]
  · obtain ⟨u, hu, hcut⟩ := cutInstruction_alone h
    rw [hu, cut_instruction, hcut]
  · next hdecl hinstr =>
    obtain ⟨content, rfl, hcut⟩ := cutTag_alone h
    rw [← hwritten] at hbegins hdecl hinstr
    have hbegins' := beginsMarkup_of_append hbegins
    have hcons : (tag content).written = '<' :: (content ++ ['>']) := rfl
    rw [hcons] at hbegins' hdecl hinstr ⊢
    cases content with
    | nil => exact absurd hbegins' (by decide)
    | cons c content =>
      rw [List.cons_append] at hbegins' hcut ⊢
      rw [cut_tag hbegins' (by rintro rfl; exact hdecl _ rfl) (by rintro rfl; exact hinstr _ rfl),
        hcut]

end Lexeme

/-! ## 2. Behind the content of a raw element -/

namespace Lexeme

/-- No end tag of a void element begins like that of a raw one, nor the other way round. -/
theorem isVoidName_of_begins {n m u : Text} (hm : isRawName m = true) (hnu : n <+: u)
    (hmu : m <+: u) : isVoidName n = false := by
  have hapart : ∀ v ∈ voidNames, ∀ r ∈ rawNames,
      ¬ Text.fold v <+: Text.fold r ∧ ¬ Text.fold r <+: Text.fold v := by decide
  rw [← Bool.not_eq_true]
  intro hvoid
  obtain ⟨v, hv, hvn⟩ := List.any_eq_true.mp hvoid
  obtain ⟨r, hr, hrm⟩ := List.any_eq_true.mp hm
  obtain ⟨hnot, hnot'⟩ := hapart v hv r hr
  rw [beq_iff_eq.mp hvn, beq_iff_eq.mp hrm] at hnot hnot'
  rcases List.prefix_or_prefix_of_prefix hnu hmu with hnm | hmn
  · exact hnot (hnm.map Char.toLower)
  · exact hnot' (hmn.map Char.toLower)

/-- A prefix in which a character does not occur ends in front of it. -/
theorem prefix_of_not_mem {c : Char} {n s r : Text} (h : n <+: s ++ c :: r) (hc : c ∉ n) :
    n <+: s := by
  rcases List.prefix_or_prefix_of_prefix h (List.prefix_append s _) with hshort | ⟨more, rfl⟩
  · exact hshort
  · cases more with
    | nil => rw [List.append_nil]
    | cons d more =>
      obtain ⟨tail, htail⟩ := (List.prefix_append_right_inj s).mp h
      obtain ⟨rfl, -⟩ := List.cons.inj htail
      exact absurd (by simp) hc

/-- **Where the content of a raw element ends, an end tag is cut off**, which begins with the name
of the element, or the `>` of one is missing. -/
theorem cut_of_closesRaw {name t : Text} (hraw : isRawName name = true)
    (hcloses : closesRaw name t = true) :
    cut t = .error .tagUnclosed ∨ ∃ n more rest, Text.sameFold n name = true ∧
      cut t = .ok (tag ('/' :: (n ++ more)), rest) := by
  obtain ⟨u, rfl, hsame, -⟩ := exists_of_closesRaw hcloses
  rw [cut_tag (beginsMarkup_of_closesRaw hraw hcloses) (by decide) (by decide), cutTag]
  cases hbreak : breakTag none ('/' :: u) with
  | none => exact Or.inl rfl
  | some r =>
    obtain ⟨content, rest⟩ := r
    have hcontent := append_of_breakTag hbreak
    cases content with
    | nil => exact absurd (List.cons.inj hcontent).1 (by decide)
    | cons c inside =>
      obtain ⟨rfl, hinside⟩ := List.cons.inj hcontent
      have hu : inside ++ '>' :: rest = u := hinside
      have hname : u.take name.length <+: inside ++ '>' :: rest := by
        rw [hu]
        exact List.take_prefix _ u
      -- the name is made of letters, so the `>` is behind it
      obtain ⟨more, hmore⟩ := prefix_of_not_mem hname fun hmem =>
        absurd ((isAlpha_of_isRawName hraw hsame).2 _ hmem) (by decide)
      exact Or.inr ⟨_, more, rest, hsame, by rw [hmore]⟩

/-- **What is cut off where the content of a raw element ends is an end tag**, and it is not that of
a void element. -/
theorem exists_closing_of_closesRaw {name t rest : Text} {l : Lexeme} {token : Token}
    (hraw : isRawName name = true) (hcloses : closesRaw name t = true)
    (hcut : cut t = .ok (l, rest)) (hmeans : l.Means token) :
    ∃ n, token = .closing n ∧ isVoidName n = false := by
  rcases cut_of_closesRaw hraw hcloses with hnone | ⟨m, more, rest', hsame, hsome⟩
  · cases hnone.symm.trans hcut
  · obtain ⟨rfl, -⟩ := Prod.mk.inj (Except.ok.inj (hsome.symm.trans hcut))
    have hrawName : isRawName m = true := (Token.isRawName_of_sameFold hsame).symm.trans hraw
    exact ⟨_, (Except.ok.inj hmeans).symm,
      isVoidName_of_begins hrawName (Text.dropEndWhile_initial _ _) (List.prefix_append m more)⟩

end Lexeme

/-! ## 3. Readings taken apart -/

/-- The pieces are read where they stand one behind the other. -/
def Piece.Stand (ps : List Piece) : Prop := Reads (text ps) ps []

namespace Piece.Stand

open Lexeme (beginsMarkup)

variable {p : Piece} {ps : List Piece}

/-- **The first of some pieces**: a lexeme that is cut off in front of the others, which are read
behind it unless it opens a raw element. -/
theorem of_cons (h : Stand (p :: ps)) : ∃ l : Lexeme, l.written = p.written ∧
    Lexeme.cut (p.written ++ text ps) = .ok (l, text ps) ∧ l.Means p.token ∧ p.written ≠ [] ∧
    ((l.rawName? = none ∧ Stand ps) ∨
      ∃ name body qs, l.rawName? = some name ∧ ps = ofRaw body ++ qs ∧
        Text.breakBefore (Lexeme.closesRaw name) (text ps) = (body, text qs) ∧ text qs ≠ [] ∧
        Stand qs) := by
  unfold Stand at h
  generalize htext : text (p :: ps) = t at h
  cases h with
  | @piece _ rest _ l token _ hne hcut hraw hmeans hrest =>
    obtain ⟨hwritten, hpiece⟩ := Lexeme.cut_written hne hcut
    rw [text_cons] at htext
    obtain rfl : text ps = rest := List.append_cancel_left (htext.trans hwritten.symm)
    exact ⟨l, rfl, htext ▸ hcut, hmeans, hpiece, Or.inl ⟨hraw, hrest⟩⟩
  | @raw _ rest body close _ name l token qs hne hcut hraw hmeans hbody hclose hrest =>
    obtain ⟨hwritten, hpiece⟩ := Lexeme.cut_written hne hcut
    have hsplit := Text.append_of_breakBefore hbody
    have hqs := hrest.text_append
    rw [List.append_nil] at hqs
    rw [text_cons] at htext
    obtain rfl : text (ofRaw body ++ qs) = rest :=
      List.append_cancel_left (htext.trans hwritten.symm)
    refine ⟨l, rfl, htext ▸ hcut, hmeans, hpiece, Or.inr ⟨name, body, qs, hraw, rfl, ?_, ?_, ?_⟩⟩
    · rw [hbody, hqs]
    · rw [hqs]
      exact hclose
    · unfold Stand
      rw [hqs]
      exact hrest

/-- A piece that opens no raw element is followed by a reading. -/
theorem of_rawName?_eq_none (h : Stand (p :: ps))
    (hraw : ∀ l : Lexeme, l.Means p.token → l.rawName? = none) : Stand ps := by
  obtain ⟨l, -, -, hmeans, -, ⟨-, hps⟩ | ⟨name, body, qs, hname, -⟩⟩ := of_cons h
  · exact hps
  · exact absurd ((hraw l hmeans).symm.trans hname) nofun

/-- A piece of markup is legible, if what is written there can only be one lexeme. -/
theorem legible {l : Lexeme} {token : Token} (h : Stand (⟨l.written, token⟩ :: ps))
    (hmarkup : l.IsMarkup)
    (honly : ∀ l' : Lexeme, l'.Means token → l'.written = l.written → l' = l) :
    l.Legible token := by
  obtain ⟨l', hwritten, hcut, hmeans, -, -⟩ := of_cons h
  obtain rfl := honly l' hmeans hwritten
  rcases Lexeme.isMarkup_or_of_cut hcut with ⟨hbegins, -⟩ | ⟨-, hrun, -⟩
  · exact ⟨Lexeme.cut_alone hbegins hcut, hmeans⟩
  · rw [hrun] at hmarkup
    exact hmarkup.elim

section Markup

variable {e : Element}

theorem tag_inj {content content' : Text}
    (h : (Lexeme.tag content).written = (Lexeme.tag content').written) : content = content' := by
  simpa [Lexeme.written] using h

theorem doctype_inj {content content' : Text}
    (h : (Lexeme.doctype content).written = (Lexeme.doctype content').written) :
    content = content' := by
  simpa [Lexeme.written] using h

theorem legible_opening (h : Stand (⟨e.startTag.written, .opening e⟩ :: ps)) :
    e.startTag.Legible (.opening e) := by
  refine h.legible trivial fun l hmeans hwritten => ?_
  cases hmeans.says with
  | opening => exact congrArg _ (tag_inj hwritten)

theorem legible_empty (h : Stand (⟨e.emptyTag.written, .empty e⟩ :: ps)) :
    e.emptyTag.Legible (.empty e) := by
  refine h.legible trivial fun l hmeans hwritten => ?_
  cases hmeans.says with
  | empty => exact congrArg _ (tag_inj hwritten)

theorem legible_closing {name : Text}
    (h : Stand (⟨(Lexeme.tag ('/' :: name)).written, .closing name⟩ :: ps)) :
    (Lexeme.tag ('/' :: name)).Legible (.closing name) := by
  refine h.legible trivial fun l hmeans hwritten => ?_
  generalize htoken : Token.closing name = token at hmeans
  cases hmeans.says with
  | closing => exact congrArg _ (tag_inj hwritten)
  | _ => exact absurd htoken nofun

theorem legible_doctype {t : Text}
    (h : Stand (⟨(Lexeme.ofDoctype t).written, .doctype t⟩ :: ps)) :
    (Lexeme.ofDoctype t).Legible (.doctype t) := by
  refine h.legible trivial fun l hmeans hwritten => ?_
  generalize htoken : Token.doctype t = token at hmeans
  cases hmeans.says with
  | doctype => exact congrArg _ (doctype_inj hwritten)
  | _ => exact absurd htoken nofun

end Markup

/-- **A text among pieces** is legible, and if it is a run, it is read as one and ends where markup
begins. -/
theorem of_text {t : Text} (h : Stand (⟨t, .text t⟩ :: ps)) :
    Stand ps ∧ t ≠ [] ∧ (∃ l : Lexeme, l.written = t ∧ l.Legible (.text t)) ∧
      (Lexeme.Plain t → beginsMarkup (t ++ text ps) = false ∧
        (text ps = [] ∨ beginsMarkup (text ps) = true)) := by
  have hps := h.of_rawName?_eq_none fun l hmeans => Lexeme.rawName?_of_text hmeans
  obtain ⟨l, hwritten, hcut, hmeans, hne, -⟩ := of_cons h
  dsimp only at hwritten hcut hmeans hne
  rcases Lexeme.isMarkup_or_of_cut hcut with ⟨hbegins, hmarkup⟩ | ⟨hbegins, hl, -⟩
  · have hlegible : l.Legible (.text t) := ⟨Lexeme.cut_alone hbegins hcut, hmeans⟩
    refine ⟨hps, hne, ⟨l, hwritten, hlegible⟩, fun hplain => ?_⟩
    have hbegins' := hlegible.beginsMarkup hmarkup
    rw [hwritten] at hbegins'
    exact absurd ((hplain t (List.suffix_refl t)).symm.trans hbegins') nofun
  · obtain rfl : l = .text t := by
      rw [hl] at hwritten ⊢
      exact congrArg _ hwritten
    obtain ⟨hplain, hrest⟩ := Lexeme.plain_of_cut hcut
    have halone := Lexeme.cut_plain hplain (Or.inl rfl) hne
    rw [List.append_nil] at halone
    exact ⟨hps, hne, ⟨.text t, rfl, halone, rfl⟩, fun _ => ⟨hbegins, hrest⟩⟩

end Piece.Stand

/-! ## 4. The pieces of trees taken apart -/

namespace Piece.Stand

variable {q : Piece} {qs : List Piece}

/-- Behind the content of a raw element stands an end tag. -/
theorem closing_of_closesRaw {name : Text} (hraw : isRawName name = true)
    (hcloses : Lexeme.closesRaw name (text (q :: qs)) = true) (h : Stand (q :: qs)) :
    ∃ n, q.token = .closing n := by
  obtain ⟨l, -, hcut, hmeans, -, -⟩ := of_cons h
  obtain ⟨n, hclosing, -⟩ := Lexeme.exists_closing_of_closesRaw hraw hcloses hcut hmeans
  exact ⟨n, hclosing⟩

end Piece.Stand

namespace Tree

open Piece (Stand)

/-- A tree begins with a piece that is no end tag. -/
theorem exists_pieces {t : Tree} (h : t.Each Shaped) :
    ∃ p ps, t.pieces = p :: ps ∧ ∀ name, p.token ≠ .closing name := by
  obtain ⟨kind, children⟩ := t
  cases kind with
  | fragment => exact absurd rfl h.1.not_fragment
  | text t => exact ⟨_, _, rfl, nofun⟩
  | doctype t => exact ⟨_, _, rfl, nofun⟩
  | element e =>
    rw [pieces]
    cases e.tagForm children.isEmpty with
    | empty => exact ⟨_, _, rfl, nofun⟩
    | bare => exact ⟨_, _, rfl, nofun⟩
    | paired => exact ⟨_, _, rfl, nofun⟩

/-- A tree that begins with a text is the text. -/
theorem eq_leaf_of_pieces {t : Tree} {body : Text} {ps : List Piece} (h : t.Each Shaped)
    (hpieces : t.pieces = ⟨body, .text body⟩ :: ps) : t = leaf (.text body) ∧ ps = [] := by
  obtain ⟨kind, children⟩ := t
  cases kind with
  | fragment => exact absurd rfl h.1.not_fragment
  | doctype t =>
    have htoken := congrArg Piece.token (List.cons.inj hpieces).1
    exact absurd htoken nofun
  | text t =>
    obtain rfl := h.1.children_eq_nil rfl
    obtain ⟨hpiece, hps⟩ := List.cons.inj hpieces
    obtain rfl : t = body := congrArg Piece.written hpiece
    exact ⟨rfl, hps.symm⟩
  | element e =>
    rw [pieces] at hpieces
    cases hform : e.tagForm children.isEmpty with
    | _ =>
      rw [hform] at hpieces
      have htoken := congrArg Piece.token (List.cons.inj hpieces).1
      exact absurd htoken nofun

/-- Trees whose pieces begin with an end tag are none. -/
theorem eq_nil_of_closing {ts : List Tree} {q : Piece} {qs rest : List Piece} {n : Text}
    (hts : EachAll Shaped ts) (hclosing : q.token = .closing n)
    (h : piecesAll ts ++ rest = q :: qs) : ts = [] := by
  cases ts with
  | nil => rfl
  | cons t ts =>
    obtain ⟨p, ps, hp, hnot⟩ := exists_pieces hts.1
    rw [piecesAll, hp, List.cons_append, List.cons_append] at h
    exact absurd ((List.cons.inj h).1 ▸ hclosing) (hnot n)

/-- What stands under a raw element is one text up to its end tag, or nothing. -/
theorem rawContent_of_stand {e : Element} {children : List Tree} {ps : List Piece}
    (hraw : isRawName e.name = true) (hshape : EachAll Shaped children)
    (h : Stand (⟨e.startTag.written, .opening e⟩ ::
      (piecesAll children ++ ⟨e.endTag.written, .closing e.name⟩ :: ps))) :
    RawContent e children ∧ Stand (⟨e.endTag.written, .closing e.name⟩ :: ps) := by
  obtain ⟨l, -, -, hmeans, -, hrest⟩ := h.of_cons
  have hname := Lexeme.rawName?_of_opening hmeans
  rw [if_pos hraw] at hname
  rcases hrest with ⟨hnone, -⟩ | ⟨name, body, qs, hsome, hpieces, hbreak, hne, hqs⟩
  · cases hname.symm.trans hnone
  · obtain rfl : e.name = name := Option.some.inj (hname.symm.trans hsome)
    have hcloses : Lexeme.closesRaw e.name (Piece.text qs) = true :=
      Text.holds_of_breakBefore hbreak hne
    cases qs with
    | nil => exact absurd rfl hne
    | cons q qs =>
      obtain ⟨n, hclosing⟩ := hqs.closing_of_closesRaw hraw hcloses
      by_cases hempty : body = []
      · rw [Piece.ofRaw, if_pos hempty, List.nil_append] at hpieces
        obtain rfl := eq_nil_of_closing hshape hclosing hpieces
        rw [piecesAll, List.nil_append] at hpieces
        rw [hpieces]
        exact ⟨Or.inl rfl, hqs⟩
      · have hall := hpieces
        rw [Piece.ofRaw, if_neg hempty, List.singleton_append] at hpieces
        cases children with
        | nil =>
          have htoken := congrArg Piece.token (List.cons.inj hpieces).1
          cases htoken
        | cons t children =>
          obtain ⟨p, ps', hp, -⟩ := exists_pieces hshape.1
          rw [piecesAll, hp, List.cons_append, List.cons_append] at hpieces
          obtain ⟨rfl, hbehind⟩ := List.cons.inj hpieces
          obtain ⟨rfl, rfl⟩ := eq_leaf_of_pieces hshape.1 hp
          rw [List.nil_append] at hbehind
          obtain rfl := eq_nil_of_closing hshape.2 hclosing hbehind
          rw [piecesAll, List.nil_append] at hbehind
          refine ⟨Or.inr ⟨body, rfl, hempty, ?_⟩, hbehind ▸ hqs⟩
          rw [hall, Piece.text_append, Piece.text_ofRaw, ← hbehind, Piece.text_cons] at hbreak
          refine Text.breakBefore_append_eq (fun s hs hsuffix => ?_) (Or.inr ?_)
          · rw [← closesRaw_endTag s (Piece.text ps)]
            exact Text.not_of_breakBefore_eq hbreak hs hsuffix
          · have hend := Lexeme.closesRaw_written e.name []
            rwa [List.append_nil] at hend

/-- Two runs of text do not stand next to each other. -/
theorem apart_of_stand {t : Tree} {ts : List Tree} {ps : List Piece}
    (h : Stand (t.pieces ++ (piecesAll ts ++ ps))) (hbehind : Stand (piecesAll ts ++ ps))
    (hrun : t.IsRun) : ∀ s ∈ ts.head?, ¬ s.IsRun := by
  rintro s hs hrun'
  match t, ts, hs, hrun, hrun' with
  | node (.text x) _, node (.text y) _ :: ts, rfl, hx, hy =>
    obtain ⟨-, -, -, hends⟩ := Piece.Stand.of_text h
    obtain ⟨-, hne, -, hbegins⟩ := Piece.Stand.of_text hbehind
    rcases (hends hx).2 with hnil | hmarkup
    · simp [piecesAll, pieces, hne] at hnil
    · exact absurd ((hbegins hy).1.symm.trans hmarkup) nofun

mutual

/-- A tree whose pieces are read where they stand is legible. -/
theorem legible_of_stand : ∀ {t : Tree}, t.Each Shaped → ∀ {ps : List Piece},
    Stand (t.pieces ++ ps) → t.Legible ∧ Stand ps
  | node (.element e) children, ⟨_, hchildren⟩, ps, h => by
    rw [Legible]
    rw [pieces] at h
    cases hform : e.tagForm children.isEmpty with
    | empty =>
      rw [hform] at h
      exact ⟨h.legible_empty, h.of_rawName?_eq_none fun l hl => Lexeme.rawName?_of_empty hl⟩
    | bare =>
      rw [hform] at h
      refine ⟨h.legible_opening, h.of_rawName?_eq_none fun l hl => ?_⟩
      have hvoid := (Element.tagForm_bare hform).2
      rw [Lexeme.rawName?_of_opening hl, isRawName_of_isVoidName hvoid, if_neg Bool.false_ne_true]
    | paired =>
      rw [hform] at h
      dsimp only at h
      rw [List.cons_append, List.append_assoc, List.singleton_append] at h
      have hstart := h.legible_opening
      have hend : ∀ {qs : List Piece},
          Stand (⟨e.endTag.written, .closing e.name⟩ :: qs) →
            e.endTag.Legible (.closing e.name) ∧ Stand qs := fun hqs =>
        ⟨hqs.legible_closing, hqs.of_rawName?_eq_none fun l hl => Lexeme.rawName?_of_closing hl⟩
      by_cases hraw : isRawName e.name = true
      · obtain ⟨hcontent, hbehind⟩ := rawContent_of_stand hraw hchildren h
        obtain ⟨hclosing, hps⟩ := hend hbehind
        exact ⟨⟨hstart, hclosing, by rwa [if_pos hraw]⟩, hps⟩
      · have hinside := h.of_rawName?_eq_none fun l hl => by
          rw [Lexeme.rawName?_of_opening hl, if_neg hraw]
        obtain ⟨hcontent, hbehind⟩ := legibleAll_of_stand hchildren hinside
        obtain ⟨hclosing, hps⟩ := hend hbehind
        exact ⟨⟨hstart, hclosing, by rwa [if_neg hraw]⟩, hps⟩
  | node .fragment _, ⟨hshape, _⟩, _, _ => absurd rfl hshape.not_fragment
  | node (.text t) children, _, ps, h => by
    obtain ⟨hps, hne, hlegible, -⟩ := Piece.Stand.of_text h
    exact ⟨⟨hne, hlegible⟩, hps⟩
  | node (.doctype t) children, _, ps, h =>
    ⟨Piece.Stand.legible_doctype h,
      h.of_rawName?_eq_none fun l hl => Lexeme.rawName?_of_doctype hl⟩

/-- **Trees whose pieces are read where they stand are legible.** -/
theorem legibleAll_of_stand : ∀ {ts : List Tree}, EachAll Shaped ts → ∀ {ps : List Piece},
    Stand (piecesAll ts ++ ps) → LegibleAll ts ∧ Stand ps
  | [], _, _, h => ⟨trivial, h⟩
  | t :: ts, ⟨ht, hts⟩, ps, h => by
    rw [piecesAll, List.append_assoc] at h
    obtain ⟨hlegible, hbehind⟩ := legible_of_stand ht h
    obtain ⟨hlegibleAll, hps⟩ := legibleAll_of_stand hts hbehind
    exact ⟨⟨hlegible, apart_of_stand h hbehind, hlegibleAll⟩, hps⟩

end

end Tree

/-! ## 5. Stable markup -/

namespace Tree

/-- **Stable markup is the markup of legible trees**: it is read, and printed again as it was, if
and only if it can be taken apart into pieces that are read, each alone, as what they are printed
for. -/
theorem stable_iff {source : Text} :
    (∃ ts, parse source = .ok ts ∧ printAll .verbatim ts = source) ↔
      ∃ ts, EachAll Shaped ts ∧ LegibleAll ts ∧ printAll .verbatim ts = source := by
  constructor
  · rintro ⟨ts, hparse, hprint⟩
    have hshape := shaped_of_parse hparse
    obtain ⟨ps, hreads, hnest⟩ := exists_reads_of_parse hparse
    obtain ⟨rs, hrespelled, hpieces⟩ :=
      respelled_of_nest hnest hreads.genuine fun o ho => absurd ho List.not_mem_nil
    have hsource := hreads.text_append
    rw [List.append_nil] at hsource
    obtain rfl : piecesAll ts = rs := hpieces
    have hstay : piecesAll ts = ps := by
      refine hrespelled.eq_of_text hreads.genuine ?_
      rw [text_piecesAll, hprint, hsource]
    have hstand : Piece.Stand (piecesAll ts ++ []) := by
      rw [List.append_nil, hstay, Piece.Stand, hsource]
      exact hreads
    exact ⟨ts, hshape, (legibleAll_of_stand hshape hstand).1, hprint⟩
  · rintro ⟨ts, hshape, hlegible, rfl⟩
    exact ⟨ts, parse_legible hshape hlegible, rfl⟩

end Tree

namespace Document

/-- **The markup of a document is read and printed again as it was** if and only if it is the markup
of legible trees. -/
theorem parse_print_iff (d : Document) :
    (∃ d', parse (d.print .verbatim) = .ok d' ∧ d'.print .verbatim = d.print .verbatim) ↔
      ∃ ts, Tree.EachAll Tree.Shaped ts ∧ Tree.LegibleAll ts ∧
        Tree.printAll .verbatim ts = d.print .verbatim := by
  have hprint : ∀ ts, (ofTrees ts).print .verbatim = Tree.printAll .verbatim ts := by
    intro ts
    rw [print, tree_root_ofTrees, Tree.print]
  rw [← Tree.stable_iff]
  constructor
  · rintro ⟨d', hparse, hagain⟩
    obtain ⟨ts, hts, rfl⟩ := exists_of_map_eq_ok hparse
    exact ⟨ts, hts, (hprint ts).symm.trans hagain⟩
  · rintro ⟨ts, hts, hagain⟩
    refine ⟨ofTrees ts, ?_, (hprint ts).trans hagain⟩
    rw [parse, hts]
    rfl

/-- Two texts with a comment between them, of which the first ends in a `<`.  Printed without the
comment they open a tag, which does not end. -/
theorem not_stable_joined :
    ∃ d, parse "1 <<!-- c -->b".toList = .ok d ∧
      ¬ ∃ d', parse (d.print .verbatim) = .ok d' ∧ d'.print .verbatim = d.print .verbatim := by
  have hparse : (parse "1 <<!-- c -->b".toList).toOption =
      some (ofTrees [.leaf (.text "1 <".toList), .leaf (.text ['b'])]) := by
    decide +kernel
  have hagain : (parse ((ofTrees [.leaf (.text "1 <".toList), .leaf (.text ['b'])]).print
      .verbatim)).toOption = none := by
    decide +kernel
  refine ⟨_, eq_ok_of_toOption hparse, ?_⟩
  rintro ⟨d', hd', -⟩
  rw [hd'] at hagain
  exact absurd hagain nofun

end Document

end Stencil
