/-
# Parts of a source

How a source is read does not depend on what follows it, as long as what follows begins with markup
(`Reads.in_front`): a run of text at its end is cut off where it was, every other piece ends in
itself, and the content of a raw element ends at an end tag that is all there.

So a source can be read part by part.  `Writes s ts rest` says that `s` is read as the trees `ts`
when `rest` follows it, and this is closed under all that markup is made of: one part behind the
other (`Writes.append`), tags around a part (`Writes.element`), tags around a raw text
(`Writes.raw`).  What is written in front of nothing is what the source is read as
(`parse_eq_ok_iff_writes`).
-/
import Stencil.Proofs.Markup.Grammar
import Stencil.Proofs.Markup.Legible

namespace Stencil

/-! ## 1. More text behind a source -/

namespace Lexeme

/-- The first piece of a source is cut off in front of markup as it is at the end. -/
theorem cut_in_front {t b rest : Text} {l : Lexeme} (hne : t ≠ []) (hcut : cut t = .ok (l, b))
    (hrest : rest = [] ∨ beginsMarkup rest = true) : cut (t ++ rest) = .ok (l, b ++ rest) := by
  rcases isMarkup_or_of_cut hcut with ⟨hbegins, -⟩ | ⟨-, hl, -⟩
  · exact cut_append hbegins hcut rest
  · obtain ⟨hwritten, hrun⟩ := cut_written hne hcut
    generalize (Text.breakBefore beginsMarkup t).1 = run at hl
    subst hl
    change run ++ b = t at hwritten
    subst hwritten
    obtain ⟨hplain, hbehind⟩ := plain_of_cut hcut
    rw [List.append_assoc]
    refine cut_plain hplain ?_ hrun
    rcases hbehind with rfl | hbehind
    · exact hrest
    · exact Or.inr (beginsMarkup_append hbehind rest)

theorem isRawName_of_rawName? {l : Lexeme} {name : Text} (h : l.rawName? = some name) :
    isRawName name = true := by
  unfold rawName? at h
  split at h
  · split at h
    · exact absurd h nofun
    · split at h
      · next hraw => rwa [← Option.some.inj h]
      · exact absurd h nofun
  · exact absurd h nofun

/-- The end tag of a raw element, cut off whole, is as long as its name and what stands around it.
-/
theorem length_of_closesRaw {name close b : Text} {l : Lexeme} (hraw : isRawName name = true)
    (hcloses : closesRaw name close = true) (hcut : cut close = .ok (l, b)) :
    name.length + 3 ≤ close.length := by
  obtain ⟨u, rfl, hsame, -⟩ := exists_of_closesRaw hcloses
  obtain ⟨-, hletters⟩ := isAlpha_of_isRawName hraw hsame
  rw [cut_tag (beginsMarkup_of_closesRaw hraw hcloses) (by decide) (by decide)] at hcut
  obtain ⟨content, hbreak, -⟩ := cutTag_eq_ok.mp hcut
  have hall := append_of_breakTag hbreak
  -- the `>` of the tag is none of the letters of the name
  have hlong : name.length < content.length := by
    refine Nat.lt_of_not_le fun hshort => ?_
    have hmem : '>' ∈ ('/' :: u).take (name.length + 1) := by
      rw [← hall, List.take_append]
      obtain ⟨k, hk⟩ := Nat.exists_eq_add_of_le hshort
      rw [hk, Nat.add_assoc, Nat.add_sub_cancel_left, List.take_succ_cons]
      simp
    rw [List.take_succ_cons] at hmem
    rcases List.mem_cons.mp hmem with heq | hmem
    · exact absurd heq (by decide)
    · exact absurd (hletters _ hmem) (by decide)
  have hlength := congrArg List.length hall
  simp only [List.length_append, List.length_cons] at hlength ⊢
  omega

/-- The content of a raw element ends where it did, whatever follows the end tag. -/
theorem breakBefore_closesRaw_append {name t body close b : Text} {l : Lexeme}
    (hraw : isRawName name = true)
    (hbody : Text.breakBefore (closesRaw name) t = (body, close)) (hclose : close ≠ [])
    (hcut : cut close = .ok (l, b)) (rest : Text) :
    Text.breakBefore (closesRaw name) (t ++ rest) = (body, close ++ rest) := by
  have hcloses : closesRaw name close = true := Text.holds_of_breakBefore hbody hclose
  have hlength := length_of_closesRaw hraw hcloses hcut
  obtain rfl := Text.append_of_breakBefore hbody
  rw [List.append_assoc]
  refine Text.breakBefore_append_eq (fun s hs hsuffix => ?_) (Or.inr ?_)
  · rw [← List.append_assoc, closesRaw_append (by rw [List.length_append]; omega)]
    exact Text.not_of_breakBefore_eq hbody hs hsuffix
  · rwa [closesRaw_append hlength]

end Lexeme

/-- **A source that is read is read in front of markup**, as the same pieces. -/
theorem Reads.in_front {t rest : Text} {ps : List Piece} (h : Reads t ps [])
    (hrest : rest = [] ∨ Lexeme.beginsMarkup rest = true) : Reads (t ++ rest) ps rest := by
  generalize hend : ([] : Text) = tail at h
  induction h with
  | done =>
    subst hend
    exact .done
  | piece hne hcut hraw hmeans _ ih =>
    exact .piece (List.append_ne_nil_of_left_ne_nil hne rest) (Lexeme.cut_in_front hne hcut hrest)
      hraw hmeans (ih hend)
  | raw hne hcut hraw hmeans hbody hclose hbehind ih =>
    have hname := Lexeme.isRawName_of_rawName? hraw
    obtain ⟨l, b, hcut'⟩ : ∃ l b, Lexeme.cut _ = .ok (l, b) := by
      cases hbehind with
      | done => exact absurd hend.symm hclose
      | piece _ hcut' => exact ⟨_, _, hcut'⟩
      | raw _ hcut' => exact ⟨_, _, hcut'⟩
    exact .raw (List.append_ne_nil_of_left_ne_nil hne rest) (Lexeme.cut_in_front hne hcut hrest)
      hraw hmeans (Lexeme.breakBefore_closesRaw_append hname hbody hclose hcut' rest)
      (List.append_ne_nil_of_left_ne_nil hclose rest) (ih hend)

/-! ## 2. Reading part by part -/

/-- The tree that is a text, if there is any text. -/
def Tree.ofText (t : Text) : List Tree := if t = [] then [] else [leaf (.text t)]

/-- In front of `rest`, the source is read as the trees. -/
def Writes (s : Text) (ts : List Tree) (rest : Text) : Prop :=
  ∃ ps, Reads (s ++ rest) ps rest ∧ Token.Derives (ps.map Piece.token) ts

/-- What a source is read as is what it writes in front of nothing. -/
theorem Tree.parse_eq_ok_iff_writes {s : Text} {ts : List Tree} :
    parse s = .ok ts ↔ Writes s ts [] := by
  rw [parse_eq_ok_iff, Writes, List.append_nil]

namespace Writes

variable {s t inner body rest : Text} {ss ts children : List Tree} {l : Lexeme} {e : Element}

theorem nil : Writes [] [] rest := ⟨[], .done, .nil⟩

/-- **One part is read behind the other.** -/
theorem append (hs : Writes s ss (t ++ rest)) (ht : Writes t ts rest) :
    Writes (s ++ t) (ss ++ ts) rest := by
  obtain ⟨ps, hps, hss⟩ := hs
  obtain ⟨qs, hqs, hts⟩ := ht
  refine ⟨ps ++ qs, ?_, ?_⟩
  · rw [List.append_assoc]
    exact hps.append hqs
  · rw [List.map_append]
    exact hss.append hts

/-- **What is read alone is read in front of markup.** -/
theorem in_front (h : Writes s ts []) (hrest : rest = [] ∨ Lexeme.beginsMarkup rest = true) :
    Writes s ts rest := by
  obtain ⟨ps, hps, hts⟩ := h
  rw [List.append_nil] at hps
  exact ⟨ps, hps.in_front hrest, hts⟩

/-- A legible piece that writes its trees alone. -/
theorem legible {token : Token} (h : l.Legible token) (hmarkup : l.IsMarkup)
    (hraw : l.rawName? = none) (halone : token.alone? = some ts) : Writes l.written ts rest :=
  ⟨_, h.reads hmarkup hraw rest, .singleton halone⟩

/-- A run of text. -/
theorem text (hplain : Lexeme.Plain t)
    (hrest : rest = [] ∨ Lexeme.beginsMarkup rest = true) : Writes t (Tree.ofText t) rest := by
  unfold Tree.ofText
  split
  · next hempty =>
    subst hempty
    exact .nil
  · next hne => exact ⟨_, Lexeme.reads_plain hplain hne hrest, .singleton rfl⟩

/-- An element that is one tag. -/
theorem empty (h : l.Legible (.empty e)) (hmarkup : l.IsMarkup) :
    Writes l.written [.leaf (.element e)] rest :=
  legible h hmarkup (Lexeme.rawName?_of_empty h.2) rfl

/-- A void element. -/
theorem bare (h : l.Legible (.opening e)) (hmarkup : l.IsMarkup) (hvoid : e.isVoid = true) :
    Writes l.written [.leaf (.element e)] rest := by
  refine legible h hmarkup ?_ (if_pos hvoid)
  rw [Lexeme.rawName?_of_opening h.2, isRawName_of_isVoidName hvoid, if_neg Bool.false_ne_true]

section Paired

variable {close : Lexeme} {name : Text} (hopen : l.Legible (.opening e)) (hmarkup : l.IsMarkup)
  (hclose : close.Legible (.closing name)) (hmarkup' : close.IsMarkup) (hvoid : e.isVoid = false)
  (hname : Text.sameFold e.name name = true)

include hopen hmarkup hclose hmarkup' hvoid hname

/-- **Tags around a part write an element around what the part writes.** -/
theorem element (hraw : isRawName e.name = false)
    (hinner : Writes inner children (close.written ++ rest)) :
    Writes (l.written ++ inner ++ close.written) [.node (.element e) children] rest := by
  obtain ⟨ps, hps, hchildren⟩ := hinner
  have hstart : l.rawName? = none := by
    rw [Lexeme.rawName?_of_opening hopen.2, if_neg (by simp [hraw])]
  have hend := hclose.reads hmarkup' (Lexeme.rawName?_of_closing hclose.2) rest
  refine ⟨⟨l.written, .opening e⟩ :: (ps ++ [⟨close.written, .closing name⟩]), ?_, ?_⟩
  · rw [List.append_assoc, List.append_assoc]
    exact (hopen.reads hmarkup hstart _).append (hps.append hend)
  · rw [List.map_cons, List.map_append, List.map_singleton]
    exact .element hvoid hname hchildren .nil

/-- **Tags around a raw text write an element with the text in it.** -/
theorem raw (hraw : isRawName e.name = true)
    (hbody : Text.breakBefore (Lexeme.closesRaw e.name) (body ++ (close.written ++ rest)) =
      (body, close.written ++ rest)) :
    Writes (l.written ++ body ++ close.written)
      [.node (.element e) (Tree.ofText body)] rest := by
  have hbegins := hopen.beginsMarkup hmarkup
  have hstart : l.rawName? = some e.name := by
    rw [Lexeme.rawName?_of_opening hopen.2, if_pos hraw]
  have hend := hclose.reads hmarkup' (Lexeme.rawName?_of_closing hclose.2) rest
  have hne : ∀ {k : Lexeme} (u : Text), Lexeme.beginsMarkup k.written = true →
      k.written ++ u ≠ [] := by
    intro k u hk
    rw [Lexeme.eq_cons_of_beginsMarkup hk]
    exact List.cons_ne_nil _ _
  refine ⟨⟨l.written, .opening e⟩ :: (Piece.ofRaw body ++ [⟨close.written, .closing name⟩]), ?_, ?_⟩
  · rw [List.append_assoc, List.append_assoc]
    exact .raw (hne _ hbegins) (Lexeme.cut_append hbegins hopen.1 _) hstart hopen.2 hbody
      (hne _ (hclose.beginsMarkup hmarkup')) hend
  · rw [List.map_cons, List.map_append, List.map_singleton]
    refine .element hvoid hname ?_ .nil
    unfold Piece.ofRaw Tree.ofText
    split
    · exact .nil
    · exact .singleton rfl

end Paired

end Writes

/-- A source that is a run of text is read as this text. -/
theorem Tree.parse_plain {t : Text} (h : Lexeme.Plain t) : parse t = .ok (ofText t) :=
  parse_eq_ok_iff_writes.mpr (.text h (Or.inl rfl))

/-- **A source is read like its parts**, if the second part is empty or begins with markup. -/
theorem Tree.parse_append {a b : Text} {ss ts : List Tree} (ha : parse a = .ok ss)
    (hb : parse b = .ok ts) (hbegins : b = [] ∨ Lexeme.beginsMarkup b = true) :
    parse (a ++ b) = .ok (ss ++ ts) := by
  rw [parse_eq_ok_iff_writes] at ha hb ⊢
  refine Writes.append ?_ hb
  rw [List.append_nil]
  exact ha.in_front hbegins

/-- An end tag behind a source that is read whole closes nothing. -/
theorem Tree.parse_append_closing {s name : Text} {ts : List Tree} {close : Lexeme}
    (h : parse s = .ok ts) (hclose : close.Legible (.closing name)) (hmarkup : close.IsMarkup)
    (hvoid : isVoidName name = false) :
    ∃ p, parse (s ++ close.written) = .error (.unexpectedEnd name p) := by
  obtain ⟨ps, hps, hts⟩ := parse_eq_ok_iff.mp h
  have hend := hclose.reads hmarkup (Lexeme.rawName?_of_closing hclose.2) []
  rw [List.append_nil] at hend
  have hreads := (hps.in_front (Or.inr (hclose.beginsMarkup hmarkup))).append hend
  have hscan : Token.scan (s ++ close.written) = ⟨_, none⟩ := scan_of_reads hreads 0
  have hnest := @Token.nest_of_derives none [] [] _ _ hts _ (map_snd_tokensAt 0 ps)
    (Piece.tokensAt (0 + Text.byteLength (Piece.text ps)) [⟨close.written, .closing name⟩])
  rw [parse, hscan]
  dsimp only
  rw [Piece.tokensAt_append, hnest, Piece.tokensAt, Token.nest, if_neg (by simp [hvoid])]
  exact ⟨_, rfl⟩

end Stencil
