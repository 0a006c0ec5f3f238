/-
# Where the content of a raw element ends

Two parts of reading decide what the end tag of a raw element is.  The scan looks for `</` and the
name of the element, and takes the name for ended by `>`, by `/` or by any ASCII blank
(`Lexeme.closesRaw`).  The tag that stands there is then read like every other end tag: its name is
all that it holds, the blanks of markup at its end aside, and this is compared with the name of the
innermost open element.

The two agree where nothing but blanks of markup follows the name (`Tree.BareEnd`), or where the tag
has no `>` at all: then the tag closes the element, or it is reported as malformed.  Behind anything
else, as in `</script/>` or `</script x>`, what the scan took for the end of the element is refused
as the end of another one.  There is no third case (`Document.settled_iff_bareEnd`).
-/
import Stencil.Proofs.Markup.Located

namespace Stencil

/-! ## 1. The end tag that is found -/

theorem Text.dropEndWhile_append_eq_iff {p : Char → Bool} {s t : Text}
    (hs : ∀ c ∈ s, p c = false) : dropEndWhile p (s ++ t) = s ↔ ∀ c ∈ t, p c = true := by
  constructor
  · intro h c hc
    have hkept : (t.reverse ++ s.reverse).dropWhile p = s.reverse := by
      rw [← List.reverse_append]
      exact List.reverse_eq_iff.mp h
    have hdropped : (t.reverse ++ s.reverse).takeWhile p = t.reverse := by
      have hall := @List.takeWhile_append_dropWhile _ p (t.reverse ++ s.reverse)
      rw [hkept] at hall
      exact List.append_cancel_right hall
    exact List.mem_takeWhile_imp (hdropped ▸ List.mem_reverse.mpr hc)
  · intro h
    have hblank : ∀ c ∈ t.reverse, p c = true := fun c hc => h c (List.mem_reverse.mp hc)
    rw [dropEndWhile, List.reverse_append, List.dropWhile_append_of_pos hblank]
    exact dropEndWhile_eq_self hs

/-- **An end tag that begins with the name of a raw element is its end tag** if and only if blanks
of markup follow. -/
theorem Token.sameFold_name_iff {name n more : Text} (hraw : isRawName name = true)
    (hname : Text.sameFold n name = true) :
    Text.sameFold name (Text.dropEndWhile Text.isTagBlank (n ++ more)) = true ↔
      ∀ c ∈ more, Text.isTagBlank c = true := by
  have hletters : ∀ c ∈ n, Text.isTagBlank c = false := fun c hc =>
    Text.isTagBlank_of_isAlpha ((Lexeme.isAlpha_of_isRawName hraw hname).2 c hc)
  rw [← Text.dropEndWhile_append_eq_iff hletters]
  constructor
  · intro h
    -- both are prefixes of what the tag holds, and equally long
    have hlength := (Text.length_of_sameFold hname).trans (Text.length_of_sameFold h)
    refine List.IsPrefix.eq_of_length ?_ hlength.symm
    refine List.prefix_of_prefix_length_le (Text.dropEndWhile_initial _ _)
      (List.prefix_append n more) hlength.ge
  · intro h
    rw [h]
    exact beq_iff_eq.mpr (beq_iff_eq.mp hname).symm

/-! ## 2. Ends of raw elements -/

namespace Tree

open Token (Derives)

/-- `RawEnd source p e outer close`: reading comes to the start tag of the raw element `e`, with the
elements `outer` open, and the end of its content is found at `p`, in front of `close`. -/
inductive RawEnd (source : Text) : Nat → Element → List Element → Text → Prop
  | intro {q : Nat} {outer : List Element} {rest behind body close : Text} {l : Lexeme}
      {e : Element} (harrives : Arrives source q outer rest)
      (hcut : Lexeme.cut rest = .ok (l, behind)) (hmeans : l.Means (.opening e))
      (hraw : isRawName e.name = true)
      (hends : Text.breakBefore (Lexeme.closesRaw e.name) behind = (body, close))
      (hclose : close ≠ []) :
    RawEnd source (q + Text.byteLength l.written + Text.byteLength body) e outer close

/-- The tag in front of which the content ends holds nothing behind the name but blanks of markup,
if it ends at all. -/
def BareEnd (name close : Text) : Prop :=
  ∀ content behind, Lexeme.cut close = .ok (.tag content, behind) →
    ∀ c ∈ content.drop (name.length + 1), Text.isTagBlank c = true

/-- The tag in front of which the content of `e` ends closes this element: it bears its name, and
behind it the elements around `e` are open. -/
def Closes (source : Text) (e : Element) (outer : List Element) (close : Text) : Prop :=
  ∃ name behind q, (Token.closing name).Begins close behind ∧
    Text.sameFold e.name name = true ∧ Arrives source q outer behind

variable {source close : Text} {p : Nat} {e : Element} {outer : List Element}

theorem derives_ofRaw (body : Text) : ∃ ts, Derives ((Piece.ofRaw body).map Piece.token) ts := by
  unfold Piece.ofRaw
  split
  · exact ⟨[], .nil⟩
  · exact ⟨_, Derives.singleton rfl⟩

/-- **Where the content ends, the raw element is the innermost one.** -/
theorem RawEnd.arrives (h : RawEnd source p e outer close) :
    Arrives source p (e :: outer) close := by
  cases h with
  | @intro q _ rest behind body _ l _ harrives hcut hmeans hraw hends hclose =>
    have hne := Token.Begins.ne_nil ⟨l, hcut, hmeans⟩ nofun
    obtain ⟨ps, hreads, hopens, rfl⟩ := harrives
    have hname := Lexeme.rawName?_of_opening hmeans
    rw [if_pos hraw] at hname
    obtain ⟨ts, hts⟩ := derives_ofRaw body
    refine ⟨_, hreads.append (.raw hne hcut hname hmeans hends hclose .done), ?_, ?_⟩
    · rw [List.map_append, List.map_cons, List.append_nil]
      exact .inside hopens (isVoidName_of_isRawName hraw) hts
    · rw [Piece.text_append, Piece.text_cons, Piece.text_append, Piece.text_ofRaw]
      simp [Nat.add_assoc]

theorem RawEnd.isRawName (h : RawEnd source p e outer close) : isRawName e.name = true := by
  cases h with
  | intro _ _ _ hraw _ _ => exact hraw

theorem RawEnd.closesRaw (h : RawEnd source p e outer close) :
    Lexeme.closesRaw e.name close = true := by
  cases h with
  | intro _ _ _ _ hends hclose => exact Text.holds_of_breakBefore hends hclose

/-- **What is found at the end of the content**: a tag that does not end, the end tag of the
element, or one that holds more than its name. -/
theorem RawEnd.cases (h : RawEnd source p e outer close) :
    (parse source = .error (.malformed .tagUnclosed p) ∧ BareEnd e.name close) ∨
    (Closes source e outer close ∧ BareEnd e.name close) ∨
    ∃ found behind, (Token.closing found).Begins close behind ∧
      Text.sameFold e.name found = false ∧
      parse source = .error (.mismatched e.name found p) ∧ ¬ BareEnd e.name close := by
  have harrives := h.arrives
  rcases Lexeme.cut_of_closesRaw h.isRawName h.closesRaw with hnone | ⟨n, more, rest, hname, hcut⟩
  · refine Or.inl ⟨parse_of_breaks harrives (.cut hnone), fun content behind hsome => ?_⟩
    cases hnone.symm.trans hsome
  · have hmeans : (Lexeme.tag ('/' :: (n ++ more))).Means
        (.closing (Text.dropEndWhile Text.isTagBlank (n ++ more))) := rfl
    obtain ⟨n', hn', hvoid⟩ :=
      Lexeme.exists_closing_of_closesRaw h.isRawName h.closesRaw hcut hmeans
    obtain rfl := Token.closing.inj hn'
    have hbare : BareEnd e.name close ↔ ∀ c ∈ more, Text.isTagBlank c = true := by
      have hdrop : ('/' :: (n ++ more)).drop (e.name.length + 1) = more := by
        rw [List.drop_succ_cons, ← Text.length_of_sameFold hname, List.drop_left]
      constructor
      · exact fun hall => hdrop ▸ hall _ _ hcut
      · intro hall content behind hcut'
        obtain ⟨hcontent, -⟩ := Prod.mk.inj (Except.ok.inj (hcut.symm.trans hcut'))
        rw [← Lexeme.tag.inj hcontent, hdrop]
        exact hall
    rw [hbare, ← Token.sameFold_name_iff h.isRawName hname]
    have hbegins : (Token.closing _).Begins close rest := ⟨_, hcut, hmeans⟩
    cases hsame : Text.sameFold e.name (Text.dropEndWhile Text.isTagBlank (n ++ more)) with
    | true =>
      obtain ⟨q, hbehind⟩ := harrives.closing hbegins hsame
      exact Or.inr (Or.inl ⟨⟨_, rest, q, hbegins, hsame, hbehind⟩, rfl⟩)
    | false =>
      refine Or.inr (Or.inr ⟨_, rest, hbegins, hsame, ?_, nofun⟩)
      exact parse_of_fails (.mismatched harrives hbegins hvoid hsame)

/-- A tag that closes the innermost element is not reported as that of another one. -/
theorem Closes.not_mismatched (h : Closes source e outer close)
    (harrives : Arrives source p (e :: outer) close) (expected found : Text) :
    parse source ≠ .error (.mismatched expected found p) := by
  intro hparse
  obtain ⟨name, behind, -, hbegins, hsame, -⟩ := h
  cases fails_of_parse hparse with
  | breaks harrives' hbreaks =>
    -- what is cut off here has a meaning, so that reading does not end
    cases hbreaks with
    | lexeme hcut hfault => cases Lexeme.faulty_of_ofLexeme hfault
  | mismatched harrives' hbegins' _ hdiffers =>
    obtain ⟨hopen, rfl⟩ := harrives.unique harrives'
    obtain ⟨rfl, -⟩ := List.cons.inj hopen
    obtain rfl := Token.closing.inj (hbegins.unique hbegins')
    cases hsame.symm.trans hdiffers

end Tree

namespace Document

open Stencil.Tree (RawEnd Closes BareEnd Arrives)

/-- **What the scan finds at the end of a raw element is settled there**, as its end tag or as a tag
that does not end, if and only if the end is bare; and the source is refused for the end tag of
another element at that place if and only if it is not. -/
theorem settled_iff_bareEnd {source close : Text} {p : Nat} {e : Element} {outer : List Element}
    (h : RawEnd source p e outer close) :
    ((parse source = .error (.malformed .tagUnclosed p) ∨ Closes source e outer close) ↔
        BareEnd e.name close) ∧
      ((∃ expected found, parse source = .error (.mismatched expected found p)) ↔
        ¬ BareEnd e.name close) := by
  simp only [parse_eq_error]
  rcases h.cases with ⟨hparse, hbare⟩ | ⟨hcloses, hbare⟩ |
    ⟨found, behind, hbegins, hdiffers, hparse, hbare⟩
  · refine ⟨iff_of_true (Or.inl hparse) hbare, iff_of_false ?_ (not_not_intro hbare)⟩
    rintro ⟨expected, found, hparse'⟩
    cases hparse.symm.trans hparse'
  · refine ⟨iff_of_true (Or.inr hcloses) hbare, iff_of_false ?_ (not_not_intro hbare)⟩
    rintro ⟨expected, found, hparse⟩
    exact hcloses.not_mismatched h.arrives expected found hparse
  · refine ⟨iff_of_false ?_ hbare, iff_of_true ⟨_, found, hparse⟩ hbare⟩
    rintro (hparse' | ⟨name, behind', q, hbegins', hsame, -⟩)
    · cases hparse.symm.trans hparse'
    · obtain rfl := Token.closing.inj (hbegins.unique hbegins')
      cases hsame.symm.trans hdiffers

/-- A script with one character in it, up to the end that is found. -/
theorem rawEnd_script {close : Text} (hclose : Lexeme.closesRaw "script".toList close = true) :
    RawEnd ("<script>x".toList ++ close) 9 { name := "script".toList } [] close := by
  obtain ⟨u, rfl, -⟩ := Lexeme.exists_of_closesRaw hclose
  have hends : Text.breakBefore (Lexeme.closesRaw "script".toList) ('x' :: '<' :: '/' :: u) =
      (['x'], '<' :: '/' :: u) := by
    rw [Text.breakBefore, if_neg (by simp [Lexeme.closesRaw]), Text.breakBefore, if_pos hclose]
  have hmeans : (Lexeme.tag "script".toList).Means (.opening { name := "script".toList }) :=
    eq_ok_of_toOption (by decide +kernel)
  exact .intro ⟨[], .done, .closed .nil, rfl⟩ rfl hmeans rfl hends (List.cons_ne_nil _ _)

theorem settled_bareSample :
    RawEnd "<script>x</SCRIPT >y".toList 9 { name := "script".toList } [] "</SCRIPT >y".toList ∧
    BareEnd "script".toList "</SCRIPT >y".toList ∧
    (parse "<script>x</SCRIPT >y".toList = .error (.malformed .tagUnclosed 9) ∨
      Closes "<script>x</SCRIPT >y".toList { name := "script".toList } []
        "</SCRIPT >y".toList) := by
  have hend : RawEnd "<script>x</SCRIPT >y".toList 9 { name := "script".toList } []
      "</SCRIPT >y".toList := rawEnd_script rfl
  have hbare : BareEnd "script".toList "</SCRIPT >y".toList := by
    have hcut : Lexeme.cut "</SCRIPT >y".toList = .ok (.tag "/SCRIPT ".toList, ['y']) := by
      decide +kernel
    intro content behind h
    obtain ⟨htag, -⟩ := Prod.mk.inj (Except.ok.inj (hcut.symm.trans h))
    simp [← Lexeme.tag.inj htag, Text.isTagBlank]
  exact ⟨hend, hbare, (settled_iff_bareEnd hend).1.mpr hbare⟩

/-- The scan takes a tag for the end of a script, and it is refused as the end of something else:
what is found is not always settled. -/
theorem not_settled_slashedSample :
    ¬ ∀ (source : Text) (p : Nat) (e : Element) (outer : List Element) (close : Text),
      RawEnd source p e outer close →
        (parse source = .error (.malformed .tagUnclosed p) ∨ Closes source e outer close) ∧
          ∀ expected found, parse source ≠ .error (.mismatched expected found p) := by
  intro h
  have hend : RawEnd "<script>x</script/>".toList 9 { name := "script".toList } []
      "</script/>".toList := rawEnd_script rfl
  have hparse : parse "<script>x</script/>".toList =
      .error (.mismatched "script".toList "script/".toList 9) := by decide +kernel
  exact (h _ _ _ _ _ hend).2 _ _ hparse

end Document

end Stencil
