/-
# Pieces that are printed again

When a source is read and its trees are printed, each piece of it is written once more, in the
printer's spelling: an end tag gets the name of the start tag that it closes, and what leaves
nothing behind is left out (`Token.Prints`).  A token that is built into the trees adds what it is
printed as to the pieces of the trees (`openPieces_of_builds`), so the markup of all trees is the
pieces of the source in the same order, each of them printed again (`respelled_of_nest`).

A piece may become longer in this way, by a quote or a blank, and it may become shorter.  But
nothing that is printed holds a `>` that was not read: the directives, which are the only thing that
is encoded anew, encode it (`Token.Prints.ends_le`).  So if the markup of the trees is the source
itself, every piece has kept all its `>`, and as a `>` ends every piece of markup, every piece is
printed as it stands (`Piece.Respelled.eq_of_text`).
-/
import Stencil.Proofs.Markup.Attributes
import Stencil.Proofs.Markup.Legible

namespace Stencil

/-! ## 1. One piece -/

/-- `token.Prints opened ps opened'`: inside the open elements, the token is printed as the pieces
`ps`, and after it `opened'` are open. -/
inductive Token.Prints : List Element → Token → List Piece → List Element → Prop
  | text {opened : List Element} {t : Text} : Prints opened (.text t) [⟨t, .text t⟩] opened
  | doctype {opened : List Element} {t : Text} :
    Prints opened (.doctype t) [⟨(Lexeme.ofDoctype t).written, .doctype t⟩] opened
  | dropped {opened : List Element} : Prints opened .dropped [] opened
  | empty {opened : List Element} {e : Element} :
    Prints opened (.empty e) [⟨e.emptyTag.written, .empty e⟩] opened
  | bare {opened : List Element} {e : Element} (hvoid : e.isVoid = true) :
    Prints opened (.opening e) [⟨e.startTag.written, .opening e⟩] opened
  | opening {opened : List Element} {e : Element} (hvoid : e.isVoid = false) :
    Prints opened (.opening e) [⟨e.startTag.written, .opening e⟩] (e :: opened)
  | voidEnd {opened : List Element} {name : Text} (hvoid : isVoidName name = true) :
    Prints opened (.closing name) [] opened
  | closing {outer : List Element} {e : Element} {name : Text} (hvoid : isVoidName name = false)
      (hname : Text.sameFold e.name name = true) :
    Prints (e :: outer) (.closing name) [⟨e.endTag.written, .closing e.name⟩] outer

/-- The pieces `ps` are printed as `qs` inside the open elements. -/
inductive Piece.Respelled : List Element → List Piece → List Piece → Prop
  | nil {opened : List Element} : Respelled opened [] []
  | cons {opened opened' : List Element} {p : Piece} {ps qs rs : List Piece}
      (hhere : p.token.Prints opened qs opened') (hrest : Respelled opened' ps rs) :
    Respelled opened (p :: ps) (qs ++ rs)

/-- The piece is the meaning of a lexeme that stands there. -/
def Piece.Genuine (p : Piece) : Prop := ∃ l : Lexeme, l.written = p.written ∧ l.Means p.token

theorem Reads.genuine {t rest : Text} {ps : List Piece} (h : Reads t ps rest) :
    ∀ p ∈ ps, p.Genuine := by
  induction h with
  | done => exact fun p hp => absurd hp List.not_mem_nil
  | piece _ _ _ hmeans _ ih => exact List.forall_mem_cons.mpr ⟨⟨_, rfl, hmeans⟩, ih⟩
  | raw _ _ _ hmeans _ _ _ ih =>
    refine List.forall_mem_cons.mpr ⟨⟨_, rfl, hmeans⟩, fun p hp => ?_⟩
    rcases List.mem_append.mp hp with hp | hp
    · unfold Piece.ofRaw at hp
      split at hp
      · exact absurd hp List.not_mem_nil
      · obtain rfl := List.mem_singleton.mp hp
        exact ⟨.raw _, rfl, rfl⟩
    · exact ih p hp

/-! ## 2. All pieces of a source -/

namespace Tree

open Token (nest)

/-- The pieces of what was read so far: of the open elements, of the trees beside them and of the
finished trees inside the innermost one. -/
def openPieces : List OpenElement → List Tree → List Piece
  | [], done => piecesAll done.reverse
  | o :: outer, done =>
    openPieces outer o.before ++
      ⟨o.element.startTag.written, .opening o.element⟩ :: piecesAll done.reverse

theorem piecesAll_append (ss ts : List Tree) :
    piecesAll (ss ++ ts) = piecesAll ss ++ piecesAll ts := by
  induction ss with
  | nil => rfl
  | cons s ss ih => rw [List.cons_append, piecesAll, piecesAll, ih, List.append_assoc]

theorem openPieces_cons (opened : List OpenElement) (t : Tree) (done : List Tree) :
    openPieces opened (t :: done) = openPieces opened done ++ t.pieces := by
  cases opened with
  | nil => simp [openPieces, piecesAll_append, piecesAll]
  | cons o outer => simp [openPieces, piecesAll_append, piecesAll]

section Pieces

variable {e : Element}

theorem pieces_empty (hclosing : e.selfClosing = true) :
    (leaf (.element e)).pieces = [⟨e.emptyTag.written, .empty e⟩] := by
  have hform : e.tagForm ([] : List Tree).isEmpty = .empty := by
    simp [Element.tagForm, hclosing]
  rw [leaf, pieces, hform]

theorem pieces_bare (hclosing : e.selfClosing = false) (hvoid : e.isVoid = true) :
    (leaf (.element e)).pieces = [⟨e.startTag.written, .opening e⟩] := by
  have hform : e.tagForm ([] : List Tree).isEmpty = .bare := by
    simp [Element.tagForm, hclosing, hvoid]
  rw [leaf, pieces, hform]

theorem pieces_paired (hclosing : e.selfClosing = false) (hvoid : e.isVoid = false)
    (children : List Tree) :
    (node (.element e) children).pieces =
      ⟨e.startTag.written, .opening e⟩ ::
        (piecesAll children ++ [⟨e.endTag.written, .closing e.name⟩]) := by
  have hform : e.tagForm children.isEmpty = .paired := by
    simp [Element.tagForm, hclosing, hvoid]
  rw [pieces, hform]

end Pieces

/-- The open elements are printed with a start tag and an end tag. -/
def OpenPaired (opened : List OpenElement) : Prop :=
  ∀ o ∈ opened, o.element.isVoid = false ∧ o.element.selfClosing = false

/-- **What a token builds is printed behind what was built before**, as what the token is printed
as. -/
theorem openPieces_of_builds {p : Nat} {l : Lexeme} {token : Token}
    {opened opened' : List OpenElement} {done done' : List Tree}
    (h : token.Builds p opened done opened' done') (hmeans : l.Means token)
    (hopened : OpenPaired opened) :
    ∃ qs, token.Prints (opened.map OpenElement.element) qs (opened'.map OpenElement.element) ∧
      openPieces opened' done' = openPieces opened done ++ qs ∧ OpenPaired opened' := by
  cases h with
  | text => exact ⟨_, .text, openPieces_cons _ _ _, hopened⟩
  | doctype => exact ⟨_, .doctype, openPieces_cons _ _ _, hopened⟩
  | dropped => exact ⟨_, .dropped, (List.append_nil _).symm, hopened⟩
  | empty =>
    refine ⟨_, .empty, ?_, hopened⟩
    rw [openPieces_cons, pieces_empty (Token.selfClosing_of_empty hmeans)]
  | bare hvoid =>
    refine ⟨_, .bare hvoid, ?_, hopened⟩
    rw [openPieces_cons, pieces_bare (Token.selfClosing_of_opening hmeans) hvoid]
  | opening hvoid =>
    have hclosing := Token.selfClosing_of_opening hmeans
    exact ⟨_, .opening hvoid, rfl, List.forall_mem_cons.mpr ⟨⟨hvoid, hclosing⟩, hopened⟩⟩
  | voidEnd hvoid => exact ⟨_, .voidEnd hvoid, (List.append_nil _).symm, hopened⟩
  | closing hvoid hname =>
    obtain ⟨hinnermost, houter⟩ := List.forall_mem_cons.mp hopened
    refine ⟨_, .closing hvoid hname, ?_, houter⟩
    rw [openPieces_cons, openPieces, pieces_paired hinnermost.2 hinnermost.1]
    simp

/-- **The trees that are built of pieces have the same pieces**, printed again. -/
theorem respelled_of_nest {ps : List Piece} {opened : List OpenElement} {done ts : List Tree}
    {p : Nat} (h : nest none opened done (Piece.tokensAt p ps) = .ok ts)
    (hps : ∀ q ∈ ps, q.Genuine) (hopened : OpenPaired opened) :
    ∃ rs, Piece.Respelled (opened.map OpenElement.element) ps rs ∧
      piecesAll ts = openPieces opened done ++ rs := by
  induction ps generalizing opened done p with
  | nil =>
    obtain ⟨-, rfl, rfl⟩ := Token.nest_nil_eq_ok.mp h
    exact ⟨[], .nil, (List.append_nil _).symm⟩
  | cons q ps ih =>
    obtain ⟨⟨l, -, hmeans⟩, hbehind⟩ := List.forall_mem_cons.mp hps
    obtain ⟨opened', done', hbuilds, hrest⟩ := Token.exists_builds h
    obtain ⟨qs, hprints, hpieces, hopened'⟩ := openPieces_of_builds hbuilds hmeans hopened
    obtain ⟨rs, hrs, hts⟩ := ih hrest hbehind hopened'
    refine ⟨qs ++ rs, .cons hprints hrs, ?_⟩
    rw [hts, hpieces, List.append_assoc]

end Tree

/-! ## 3. No `>` is gained -/

/-- How many `>` a text holds. -/
def Text.ends (t : Text) : Nat := t.count '>'

namespace Text

@[simp] theorem ends_nil : ends [] = 0 := rfl

@[simp] theorem ends_append (s t : Text) : ends (s ++ t) = ends s + ends t := List.count_append

theorem ends_cons_of_ne {c : Char} (hc : c ≠ '>') (t : Text) : ends (c :: t) = ends t :=
  List.count_cons_of_ne hc

theorem ends_cons_le (c : Char) (t : Text) : ends t ≤ ends (c :: t) :=
  (List.sublist_cons_self c t).count_le '>'

theorem ends_le_of_sublist {s t : Text} (h : s.Sublist t) : ends s ≤ ends t := h.count_le '>'

theorem ends_split (p : Char → Bool) (t : Text) :
    ends (t.takeWhile p) + ends (t.dropWhile p) = ends t := by
  rw [← ends_append, List.takeWhile_append_dropWhile]

theorem ends_dropWhile_le (p : Char → Bool) (t : Text) : ends (t.dropWhile p) ≤ ends t :=
  ends_le_of_sublist (List.dropWhile_sublist p)

/-- The value of a directive holds no `>`. -/
theorem ends_quoted (t : Text) : ends (quoted t) = 0 := by
  refine List.count_eq_zero.mpr fun hmem => ?_
  obtain ⟨c, -, hc⟩ := List.mem_flatMap.mp hmem
  unfold quotedChar at hc
  split at hc
  · exact absurd hc (by decide)
  · split at hc
    · exact absurd hc (by decide)
    · next hgt =>
      split at hc
      · exact absurd hc (by decide)
      · split at hc
        · exact absurd hc (by decide)
        · split at hc
          · exact absurd hc (by decide)
          · exact hgt (List.mem_singleton.mp hc).symm

end Text

namespace Attribute

/-- How many `>` an attribute holds. -/
def ends (a : Attribute) : Nat := a.name.ends + a.value.ends

/-- How many `>` attributes hold together. -/
def endsAll (as : List Attribute) : Nat := (as.map ends).sum

theorem endsAll_put (name value : Text) (as : List Attribute) :
    endsAll (put name value as) ≤ endsAll as + (name.ends + value.ends) := by
  induction as with
  | nil => simp [put, endsAll, ends]
  | cons a as ih =>
    unfold put
    split
    · simp only [endsAll, List.map_cons, List.sum_cons, ends]
      omega
    · simp only [endsAll, List.map_cons, List.sum_cons] at ih ⊢
      omega

theorem ends_print (a : Attribute) : a.print.ends = a.ends := by
  have hquote : quoteFor a.value ≠ '>' := by
    unfold quoteFor
    split <;> decide
  unfold print
  split
  · next h => simp [ends, h, Text.ends_cons_of_ne]
  · simp [ends, Text.ends_cons_of_ne hquote, Text.ends_cons_of_ne]

end Attribute

namespace Tag

open Text (isTagBlank)

variable {n : Nat} {t : Text}

theorem ends_readValue {value rest : Text} (h : readValue n t = .ok (value, rest)) :
    value.ends + rest.ends ≤ t.ends := by
  have hblank := Text.ends_dropWhile_le isTagBlank t
  unfold readValue at h
  split at h
  · exact absurd h nofun
  · next c tail heq =>
    rw [heq] at hblank
    split at h
    · next hquote =>
      have hsplit := Text.ends_split (· != c) tail
      have hcons := Text.ends_cons_le c tail
      split at h
      · exact absurd h nofun
      · next d tail' heq' =>
        obtain ⟨rfl, rfl⟩ := Prod.mk.inj (Except.ok.inj h)
        have hcons' := Text.ends_cons_le d tail'
        rw [heq'] at hsplit
        omega
    · obtain ⟨rfl, rfl⟩ := Prod.mk.inj (Except.ok.inj h)
      have hsplit := Text.ends_split (!isTagBlank ·) tail
      have hvalue := Text.ends_append [c] (tail.takeWhile (!isTagBlank ·))
      have hall := Text.ends_append [c] tail
      rw [List.singleton_append] at hvalue hall
      omega

theorem ends_readAttribute {first : Char} {rest : Text} {a : Attribute}
    (h : readAttribute n first t = .ok (a, rest)) :
    a.ends + rest.ends ≤ Text.ends (first :: t) := by
  have hname := Text.ends_append [first] (t.takeWhile continuesName)
  have hall := Text.ends_append [first] t
  have hsplit := Text.ends_split continuesName t
  have hblank := Text.ends_dropWhile_le isTagBlank (t.dropWhile continuesName)
  rw [List.singleton_append] at hname hall
  simp only [readAttribute] at h
  split at h
  · next value heq =>
    rw [heq] at hblank
    have hcons := Text.ends_cons_le '=' value
    cases hvalue : readValue n value with
    | error fault =>
      rw [hvalue] at h
      cases h
    | ok r =>
      obtain ⟨text, tail⟩ := r
      have hread := ends_readValue hvalue
      rw [hvalue] at h
      obtain ⟨rfl, rfl⟩ := Prod.mk.inj (Except.ok.inj h)
      rw [Attribute.ends]
      dsimp only
      omega
  · obtain ⟨rfl, rfl⟩ := Prod.mk.inj (Except.ok.inj h)
    rw [Attribute.ends]
    dsimp only
    rw [Text.ends_nil]
    omega

theorem endsAll_attributes (n : Nat) (t : Text) :
    Attribute.endsAll (attributes n t).1 ≤ t.ends := by
  have hblank := Text.ends_dropWhile_le isTagBlank t
  cases h : t.dropWhile isTagBlank with
  | nil =>
    rw [attributes_of_nil h]
    exact Nat.zero_le _
  | cons first more =>
    rw [attributes_of_cons h]
    cases hread : readAttribute n first more with
    | error fault => exact Nat.zero_le _
    | ok r =>
      obtain ⟨a, rest⟩ := r
      have hhere := ends_readAttribute hread
      have hbehind := endsAll_attributes n rest
      rw [h] at hblank
      simp only [Attribute.endsAll, List.map_cons, List.sum_cons] at hbehind ⊢
      omega
termination_by t.length
decreasing_by
  have hshort := (List.dropWhile_sublist isTagBlank (l := t)).length_le
  have hrest := readAttribute_length hread
  rw [h, List.length_cons] at hshort
  omega

theorem endsAll_attach {p : Nat} {e e' : Element} {a : Attribute} (h : attach p e a = .ok e') :
    Attribute.endsAll e'.attributes ≤ Attribute.endsAll e.attributes + a.ends := by
  unfold attach at h
  split at h
  · obtain rfl := Except.ok.inj h
    exact Nat.le_add_right _ _
  · split at h
    · obtain rfl := Except.ok.inj h
      exact Attribute.endsAll_put a.name a.value e.attributes
    · obtain rfl := Except.ok.inj h
      exact Nat.le_add_right _ _
    · exact absurd h nofun

/-- **An element holds no `>` that its tag does not hold.** -/
theorem ends_element {p : Nat} {selfClosing : Bool} {content : Text} {e : Element}
    (h : element p selfClosing content = .ok e) :
    e.name.ends + Attribute.endsAll e.attributes ≤ content.ends := by
  have hfold : ∀ (as : List Attribute) {e e' : Element}, as.foldlM (attach p) e = .ok e' →
      Attribute.endsAll e'.attributes ≤ Attribute.endsAll e.attributes + Attribute.endsAll as := by
    intro as
    induction as with
    | nil =>
      intro e e' h
      obtain rfl := Except.ok.inj h
      exact Nat.le_add_right _ _
    | cons a as ih =>
      intro e e' h
      obtain ⟨e'', ha, has⟩ := foldlM_attach_cons.mp h
      have hhere := endsAll_attach ha
      have hbehind := ih has
      simp only [Attribute.endsAll, List.map_cons, List.sum_cons] at hhere hbehind ⊢
      omega
  have hsplit := Text.ends_split (!isTagBlank ·) content
  have hall := endsAll_attributes (Text.byteLength content) (content.dropWhile (!isTagBlank ·))
  have hattributes := hfold _ (element_eq_ok.mp h).2
  rw [(element_name h).1, name]
  simp only [Attribute.endsAll, List.map_nil, List.sum_nil] at hall hattributes ⊢
  omega

end Tag

/-- The start tag holds the `>` of the name and of the attributes. -/
theorem Element.ends_content (e : Element) :
    e.content.ends = e.name.ends + Attribute.endsAll e.attributes := by
  have hattributes : ∀ as : List Attribute,
      Text.ends (as.flatMap Attribute.print) = Attribute.endsAll as := by
    intro as
    induction as with
    | nil => rfl
    | cons a as ih =>
      rw [List.flatMap_cons, Text.ends_append, Attribute.ends_print, ih]
      rfl
  have hdirective : ∀ {keyword : Text} (value : Text), Text.ends keyword = 0 →
      (printDirective keyword value).ends = 0 := by
    intro keyword value hkeyword
    simp [printDirective, Text.ends_cons_of_ne, Text.ends_quoted, hkeyword]
  have hdeclares :
      Text.ends ((e.declares.map (printDirective declarationKeyword)).getD []) = 0 := by
    cases e.declares with
    | none => rfl
    | some name => exact hdirective name rfl
  have hbranch : Text.ends ((e.branch.map Branch.print).getD []) = 0 := by
    cases e.branch with
    | none => rfl
    | some b =>
      cases b with
      | when condition => exact hdirective condition rfl
      | orWhen condition => exact hdirective condition rfl
      | otherwise => rfl
  rw [content, Text.ends_append, Text.ends_append, Text.ends_append, hdeclares, hbranch,
    hattributes]
  omega

namespace Text

theorem ends_fold (t : Text) : (fold t).ends = t.ends := by
  induction t with
  | nil => rfl
  | cons c t ih =>
    have hcons : fold (c :: t) = c.toLower :: fold t := rfl
    rw [hcons]
    by_cases hc : c = '>'
    · subst hc
      have hlower : '>'.toLower = '>' := by decide
      rw [hlower, ends, ends, List.count_cons_self, List.count_cons_self, ← ends, ← ends, ih]
    · rw [ends_cons_of_ne hc, ends_cons_of_ne (toLower_ne (by decide) hc), ih]

theorem ends_eq_of_sameFold {s t : Text} (h : sameFold s t = true) : s.ends = t.ends := by
  rw [← ends_fold s, ← ends_fold t, beq_iff_eq.mp h]

theorem dropEndWhile_initial (p : Char → Bool) (t : Text) : dropEndWhile p t <+: t := by
  rw [dropEndWhile, ← List.reverse_suffix, List.reverse_reverse]
  exact List.dropWhile_suffix p

theorem trim_sublist (t : Text) : (trim t).Sublist t :=
  (dropEndWhile_initial isBlank _).sublist.trans (List.dropWhile_sublist isBlank)

/-- A tag and a doctype end in a `>`. -/
theorem ends_written_tag (content : Text) :
    (Lexeme.tag content).written.ends = content.ends + 1 := by
  rw [Lexeme.written, ends_append, ends_append]
  simp [ends]

theorem ends_written_doctype (content : Text) :
    (Lexeme.doctype content).written.ends = content.ends + 1 := by
  rw [Lexeme.written, ends_append, ends_append]
  simp [ends]

end Text

namespace Token.Prints

variable {opened opened' : List Element} {p : Piece} {qs : List Piece}

/-- **A piece that is printed again holds no `>` that was not read.** -/
theorem ends_le (h : p.token.Prints opened qs opened') (hp : p.Genuine) :
    (Piece.text qs).ends ≤ p.written.ends := by
  have hstart : ∀ {content : Text} {e : Element}, Tag.element 0 false content = .ok e →
      e.startTag.written.ends ≤ (Lexeme.tag content).written.ends := by
    intro content e he
    have hcontent := Tag.ends_element he
    rw [Element.startTag, Text.ends_written_tag, Text.ends_written_tag, Element.ends_content]
    omega
  obtain ⟨l, hl, hmeans⟩ := hp
  obtain ⟨w, token⟩ := p
  dsimp only at h hl hmeans ⊢
  subst hl
  cases h with
  | text =>
    cases hmeans.says with
    | text => simp
  | @doctype opened t =>
    cases hmeans.says with
    | @doctype content =>
      have htrim := Text.ends_le_of_sublist ((Text.trim_sublist _).trans
        ((List.dropWhile_sublist Text.isTagBlank).trans
          (List.drop_sublist Lexeme.doctypeKeyword.length content)))
      have hkeyword : Text.ends (Lexeme.doctypeKeyword ++ [' ']) = 0 := by decide
      have happend := Text.ends_append (Lexeme.doctypeKeyword ++ [' ']) (Text.trim
        ((content.drop Lexeme.doctypeKeyword.length).dropWhile Text.isTagBlank))
      rw [List.append_assoc, List.singleton_append] at happend
      rw [Piece.text_cons, Piece.text_nil, List.append_nil, Lexeme.ofDoctype,
        Text.ends_written_doctype, Text.ends_written_doctype, happend]
      omega
  | dropped => exact Nat.zero_le _
  | @empty opened e =>
    cases hmeans.says with
    | @empty content _ hend he =>
      have hcontent := Tag.ends_element he
      have hlast := Text.ends_le_of_sublist (List.dropLast_sublist content)
      have hslash : Text.ends ['/'] = 0 := by decide
      rw [Piece.text_cons, Piece.text_nil, List.append_nil, Element.emptyTag,
        Text.ends_written_tag, Text.ends_written_tag, Text.ends_append, Element.ends_content,
        hslash]
      omega
  | bare hvoid =>
    cases hmeans.says with
    | opening hhead hend he => simpa using hstart he
  | opening hvoid =>
    cases hmeans.says with
    | opening hhead hend he => simpa using hstart he
  | voidEnd hvoid => exact Nat.zero_le _
  | closing hvoid hname =>
    cases hmeans.says with
    | @closing content =>
      have hsame := Text.ends_eq_of_sameFold hname
      have hprefix := Text.ends_le_of_sublist
        (Text.dropEndWhile_initial Text.isTagBlank content).sublist
      rw [Piece.text_cons, Piece.text_nil, List.append_nil, Element.endTag, Text.ends_written_tag,
        Text.ends_written_tag, Text.ends_cons_of_ne (by decide), Text.ends_cons_of_ne (by decide)]
      omega

end Token.Prints

/-! ## 4. Markup that is printed as it stands -/

namespace Text

theorem eq_nil_of_ends {s z : Text} (hlast : (s ++ z).getLast? = some '>')
    (hends : s.ends = (s ++ z).ends) : z = [] := by
  rw [ends_append] at hends
  cases hz : z.getLast? with
  | none => exact List.getLast?_eq_none_iff.mp hz
  | some c =>
    rw [List.getLast?_append, hz, Option.some_or] at hlast
    obtain rfl := Option.some.inj hlast
    have hpos : 0 < z.ends := List.count_pos_iff.mpr (List.mem_of_getLast? hz)
    omega

/-- Two beginnings of a text that end in a `>` and hold as many of them are the same. -/
theorem eq_of_ends {s t x y : Text} (h : s ++ x = t ++ y) (hs : s.getLast? = some '>')
    (ht : t.getLast? = some '>') (hends : s.ends = t.ends) : s = t := by
  rcases List.append_eq_append_iff.mp h with ⟨z, rfl, -⟩ | ⟨z, rfl, -⟩
  · rw [eq_nil_of_ends ht hends, List.append_nil]
  · rw [eq_nil_of_ends hs hends.symm, List.append_nil]

end Text

namespace Token.Prints

variable {opened opened' : List Element} {p : Piece} {qs : List Piece}

theorem getLast?_tag (content : Text) : (Lexeme.tag content).written.getLast? = some '>' :=
  List.getLast?_concat

theorem getLast?_doctype (content : Text) :
    (Lexeme.doctype content).written.getLast? = some '>' :=
  List.getLast?_concat

/-- A piece that ends in the last of as many `>` as stand in its place is what stands there. -/
theorem written_eq_of_ends {q : Piece} {w x y : Text} (hq : q.written.getLast? = some '>')
    (hw : w.getLast? = some '>') (hends : (Piece.text [q]).ends = w.ends)
    (htext : Piece.text [q] ++ x = w ++ y) : q.written = w := by
  rw [Piece.text_cons, Piece.text_nil, List.append_nil] at hends htext
  exact Text.eq_of_ends htext hq hw hends

/-- **A piece that keeps its `>` is printed as it stands**, if what is printed stands there. -/
theorem eq_of_ends (h : p.token.Prints opened qs opened') (hp : p.Genuine)
    (hends : (Piece.text qs).ends = p.written.ends) {x y : Text}
    (htext : Piece.text qs ++ x = p.written ++ y) : qs = [p] := by
  obtain ⟨l, hl, hmeans⟩ := hp
  obtain ⟨w, token⟩ := p
  dsimp only at h hl hmeans hends htext ⊢
  subst hl
  cases h with
  | text =>
    cases hmeans.says with
    | text => rfl
  | dropped =>
    cases hmeans.says with
    | dropped hend =>
      have hpos : 0 < l.written.ends := List.count_pos_iff.mpr hend
      rw [Piece.text_nil, Text.ends_nil] at hends
      omega
  | voidEnd hvoid =>
    cases hmeans.says with
    | closing =>
      rw [Piece.text_nil, Text.ends_nil, Text.ends_written_tag] at hends
      omega
  | doctype =>
    cases hmeans.says with
    | doctype =>
      have hwritten := written_eq_of_ends (getLast?_doctype _) (getLast?_doctype _) hends htext
      exact congrArg (fun w => [Piece.mk w _]) hwritten
  | empty =>
    cases hmeans.says with
    | empty hend he =>
      have hwritten := written_eq_of_ends (getLast?_tag _) (getLast?_tag _) hends htext
      exact congrArg (fun w => [Piece.mk w _]) hwritten
  | bare hvoid =>
    cases hmeans.says with
    | opening hhead hend he =>
      have hwritten := written_eq_of_ends (getLast?_tag _) (getLast?_tag _) hends htext
      exact congrArg (fun w => [Piece.mk w _]) hwritten
  | opening hvoid =>
    cases hmeans.says with
    | opening hhead hend he =>
      have hwritten := written_eq_of_ends (getLast?_tag _) (getLast?_tag _) hends htext
      exact congrArg (fun w => [Piece.mk w _]) hwritten
  | @closing _ e _ hvoid hname =>
    cases hmeans.says with
    | @closing content =>
      have hwritten := written_eq_of_ends (getLast?_tag _) (getLast?_tag _) hends htext
      obtain rfl : e.name = content := by simpa [Element.endTag, Lexeme.written] using hwritten
      have hlength := congrArg List.length (beq_iff_eq.mp hname)
      rw [Text.fold, Text.fold, List.length_map, List.length_map] at hlength
      have hname := (Text.dropEndWhile_initial Text.isTagBlank e.name).eq_of_length hlength.symm
      rw [hname]
      rfl

end Token.Prints

namespace Piece.Respelled

variable {opened : List Element} {ps rs : List Piece}

theorem ends_le (h : Respelled opened ps rs) (hps : ∀ p ∈ ps, p.Genuine) :
    (text rs).ends ≤ (text ps).ends := by
  induction h with
  | nil => exact Nat.le_refl _
  | cons hhere _ ih =>
    obtain ⟨hp, hps⟩ := List.forall_mem_cons.mp hps
    have hfirst := hhere.ends_le hp
    have hbehind := ih hps
    rw [text_append, text_cons, Text.ends_append, Text.ends_append]
    omega

/-- **If the pieces of a source are printed as the source, each is printed as it stands.** -/
theorem eq_of_text (h : Respelled opened ps rs) (hps : ∀ p ∈ ps, p.Genuine)
    (htext : text rs = text ps) : rs = ps := by
  induction h with
  | nil => rfl
  | cons hhere hrest ih =>
    obtain ⟨hp, hps⟩ := List.forall_mem_cons.mp hps
    rw [text_append, text_cons] at htext
    have hends := congrArg Text.ends htext
    have hfirst := hhere.ends_le hp
    have hbehind := hrest.ends_le hps
    rw [Text.ends_append, Text.ends_append] at hends
    obtain rfl := hhere.eq_of_ends hp (by omega) htext
    rw [text_cons, text_nil, List.append_nil] at htext
    rw [ih hps (List.append_cancel_left htext)]
    rfl

end Piece.Respelled

end Stencil
