/-
# Reading as a relation

A reading keeps byte offsets and faults, which the markup of a tree has no use for.  `Reads t ps
rest` says the same without them: the pieces `ps` can be taken off `t`, one after the other, and
`rest` is what is left.  A piece is what stands in the markup together with what it is read as.

Readings can be put one behind the other (`Reads.append`) and be taken apart (`Reads.part`), which
the recursion of `Lexeme.scan` does not offer.  Scanning goes on where a reading ends
(`Token.scanFrom_of_reads`), and every source can be read up to its end or up to a place where no
piece can be read (`Token.exists_reads_until`).  So all that is to be known of a scan is known of
readings and of the places where they end: a complete reading is what the source is scanned as
(`scan_of_reads`), and every scan without faults comes from one (`exists_reads`).
-/
import Stencil.Proofs.Markup.Cuts
import Stencil.Proofs.Markup.Tokens

namespace Stencil

/-! ## 1. Pieces -/

/-- A piece of markup: what stands there, and what it is read as. -/
@[ext] structure Piece where
  written : Text
  token : Token

namespace Piece

/-- The markup that the pieces make up. -/
def text (ps : List Piece) : Text := ps.flatMap written

@[simp] theorem text_nil : text [] = [] := rfl

@[simp] theorem text_cons (p : Piece) (ps : List Piece) : text (p :: ps) = p.written ++ text ps :=
  rfl

@[simp] theorem text_append (ps qs : List Piece) : text (ps ++ qs) = text ps ++ text qs :=
  List.flatMap_append

/-- The content of a raw element, which leaves nothing if it is empty. -/
def ofRaw (body : Text) : List Piece := if body = [] then [] else [⟨body, .text body⟩]

theorem text_ofRaw (body : Text) : text (ofRaw body) = body := by
  unfold ofRaw
  split
  · next h => exact h.symm
  · simp

end Piece

/-- `Reads t ps rest`: the pieces `ps` can be taken off `t`, and `rest` is left. -/
inductive Reads : Text → List Piece → Text → Prop
  | done {t : Text} : Reads t [] t
  | piece {t rest tail : Text} {l : Lexeme} {token : Token} {ps : List Piece} (hne : t ≠ [])
      (hcut : Lexeme.cut t = .ok (l, rest)) (hraw : l.rawName? = none) (hmeans : l.Means token)
      (hrest : Reads rest ps tail) : Reads t (⟨l.written, token⟩ :: ps) tail
  | raw {t rest body close tail name : Text} {l : Lexeme} {token : Token} {ps : List Piece}
      (hne : t ≠ []) (hcut : Lexeme.cut t = .ok (l, rest)) (hraw : l.rawName? = some name)
      (hmeans : l.Means token)
      (hbody : Text.breakBefore (Lexeme.closesRaw name) rest = (body, close)) (hclose : close ≠ [])
      (hrest : Reads close ps tail) :
      Reads t (⟨l.written, token⟩ :: (Piece.ofRaw body ++ ps)) tail

namespace Reads

variable {t mid rest : Text} {ps qs : List Piece}

/-- **Readings can be put one behind the other.** -/
theorem append (h : Reads t ps mid) (h' : Reads mid qs rest) : Reads t (ps ++ qs) rest := by
  induction h with
  | done => exact h'
  | piece hne hcut hraw hmeans _ ih => exact .piece hne hcut hraw hmeans (ih h')
  | raw hne hcut hraw hmeans hbody hclose _ ih =>
    rw [List.cons_append, List.append_assoc]
    exact .raw hne hcut hraw hmeans hbody hclose (ih h')

/-- **A reading loses nothing.** -/
theorem text_append (h : Reads t ps rest) : Piece.text ps ++ rest = t := by
  induction h with
  | done => rfl
  | piece hne hcut _ _ _ ih =>
    rw [Piece.text_cons, List.append_assoc, ih, (Lexeme.cut_written hne hcut).1]
  | raw hne hcut _ _ hbody _ _ ih =>
    rw [Piece.text_cons, Piece.text_append, Piece.text_ofRaw, List.append_assoc, List.append_assoc,
      ih, Text.append_of_breakBefore hbody, (Lexeme.cut_written hne hcut).1]

/-- A reading leaves a suffix, and a shorter one if it takes anything off. -/
theorem length_lt (h : Reads t ps rest) (hne : ps ≠ []) : rest.length < t.length := by
  have hle : ∀ {t ps rest}, Reads t ps rest → rest.length ≤ t.length := fun h => by
    rw [← h.text_append, List.length_append]
    exact Nat.le_add_left _ _
  cases h with
  | done => exact absurd rfl hne
  | piece hne' hcut _ _ hrest =>
    exact Nat.lt_of_le_of_lt (hle hrest) (Lexeme.length_of_cut hne' hcut)
  | raw hne' hcut _ _ hbody _ hrest =>
    have hsplit := congrArg List.length (Text.append_of_breakBefore hbody)
    have hcutLength := Lexeme.length_of_cut hne' hcut
    have hrestLength := hle hrest
    rw [List.length_append] at hsplit
    omega

/-- **A reading that goes further goes through every other reading.** -/
theorem of_further (h : Reads t ps mid) (hall : Reads t qs rest) (hle : rest.length ≤ mid.length) :
    ∃ rs, qs = ps ++ rs ∧ Reads mid rs rest := by
  induction h generalizing qs with
  | done => exact ⟨qs, rfl, hall⟩
  | piece hne hcut hraw hmeans hrest ih =>
    have hshort := (Reads.piece hne hcut hraw hmeans hrest).length_lt (List.cons_ne_nil _ _)
    cases hall with
    | done => omega
    | piece _ hcut' _ hmeans' hrest' =>
      obtain ⟨rfl, rfl⟩ := Prod.mk.inj (Except.ok.inj (hcut.symm.trans hcut'))
      obtain rfl := Except.ok.inj (hmeans.symm.trans hmeans')
      obtain ⟨rs, rfl, hrs⟩ := ih hrest' hle
      exact ⟨rs, rfl, hrs⟩
    | raw _ hcut' hraw' _ _ _ _ =>
      obtain ⟨rfl, -⟩ := Prod.mk.inj (Except.ok.inj (hcut.symm.trans hcut'))
      exact absurd (hraw.symm.trans hraw') nofun
  | raw hne hcut hraw hmeans hbody hclose hrest ih =>
    have hshort := (Reads.raw hne hcut hraw hmeans hbody hclose hrest).length_lt
      (List.cons_ne_nil _ _)
    cases hall with
    | done => omega
    | piece _ hcut' hraw' _ _ =>
      obtain ⟨rfl, -⟩ := Prod.mk.inj (Except.ok.inj (hcut.symm.trans hcut'))
      exact absurd (hraw.symm.trans hraw') nofun
    | raw _ hcut' hraw' hmeans' hbody' _ hrest' =>
      obtain ⟨rfl, rfl⟩ := Prod.mk.inj (Except.ok.inj (hcut.symm.trans hcut'))
      obtain rfl := Except.ok.inj (hmeans.symm.trans hmeans')
      obtain rfl := Option.some.inj (hraw.symm.trans hraw')
      obtain ⟨rfl, rfl⟩ := Prod.mk.inj (hbody.symm.trans hbody')
      obtain ⟨rs, rfl, hrs⟩ := ih hrest' hle
      exact ⟨rs, by rw [List.cons_append, List.append_assoc], hrs⟩

/-- A reading up to the end goes through every other reading. -/
theorem of_complete (h : Reads t ps mid) (hall : Reads t qs []) :
    ∃ rs, qs = ps ++ rs ∧ Reads mid rs [] :=
  h.of_further hall (Nat.zero_le _)

/-- **There is one way to read up to a place.** -/
theorem unique (h : Reads t ps rest) (h' : Reads t qs rest) : ps = qs := by
  obtain ⟨rs, rfl, hrs⟩ := h.of_further h' (Nat.le_refl _)
  have hnil : rs = [] := by
    by_contra hne
    exact Nat.lt_irrefl _ (hrs.length_lt hne)
  rw [hnil, List.append_nil]

/-- The content of a raw element is a text, so all of it lies in front of a piece that is none. -/
theorem exists_of_ofRaw {q : Piece} {body : Text} {rs : List Piece}
    (hq : ∀ x, q.token ≠ .text x) (h : ps ++ q :: qs = Piece.ofRaw body ++ rs) :
    ∃ ps', ps = Piece.ofRaw body ++ ps' ∧ ps' ++ q :: qs = rs := by
  rcases List.append_eq_append_iff.mp h with ⟨as, hbody, hbehind⟩ | ⟨as, hps, hbehind⟩
  · cases as with
    | nil =>
      rw [List.append_nil] at hbody
      exact ⟨[], by rw [List.append_nil, hbody], hbehind⟩
    | cons a as =>
      -- then the piece is the content itself
      obtain ⟨rfl, -⟩ := List.cons.inj hbehind
      have hmem : q ∈ Piece.ofRaw body := by simp [hbody]
      unfold Piece.ofRaw at hmem
      split at hmem
      · exact absurd hmem List.not_mem_nil
      · obtain rfl := List.mem_singleton.mp hmem
        exact absurd rfl (hq body)
  · exact ⟨as, hps, hbehind.symm⟩

/-- **A reading can be parted in front of every piece that is no text.** -/
theorem part {q : Piece} (h : Reads t (ps ++ q :: qs) rest) (hq : ∀ x, q.token ≠ .text x) :
    ∃ mid, Reads t ps mid ∧ Reads mid (q :: qs) rest := by
  generalize hall : ps ++ q :: qs = rs at h
  induction h generalizing ps with
  | done => exact absurd hall (by simp)
  | piece hne hcut hraw hmeans hrest ih =>
    cases ps with
    | nil =>
      rw [List.nil_append] at hall
      rw [hall]
      exact ⟨_, .done, .piece hne hcut hraw hmeans hrest⟩
    | cons p ps =>
      rw [List.cons_append] at hall
      obtain ⟨rfl, htail⟩ := List.cons.inj hall
      obtain ⟨mid, hps, hmid⟩ := ih htail
      exact ⟨mid, .piece hne hcut hraw hmeans hps, hmid⟩
  | raw hne hcut hraw hmeans hbody hclose hrest ih =>
    cases ps with
    | nil =>
      rw [List.nil_append] at hall
      rw [hall]
      exact ⟨_, .done, .raw hne hcut hraw hmeans hbody hclose hrest⟩
    | cons p ps =>
      rw [List.cons_append] at hall
      obtain ⟨rfl, htail⟩ := List.cons.inj hall
      obtain ⟨ps, rfl, hbehind⟩ := exists_of_ofRaw hq htail
      obtain ⟨mid, hps, hmid⟩ := ih hbehind
      exact ⟨mid, .raw hne hcut hraw hmeans hbody hclose hps, hmid⟩

end Reads

/-! ## 2. Scanning -/

/-- The tokens of pieces that stand one behind the other from `position` on. -/
def Piece.tokensAt (position : Nat) : List Piece → List (Nat × Token)
  | [] => []
  | p :: ps => (position, p.token) :: tokensAt (position + Text.byteLength p.written) ps

theorem Piece.tokensAt_append (p : Nat) (ps qs : List Piece) :
    tokensAt p (ps ++ qs) = tokensAt p ps ++ tokensAt (p + Text.byteLength (text ps)) qs := by
  induction ps generalizing p with
  | nil => simp [tokensAt]
  | cons q ps ih => simp [tokensAt, ih, Nat.add_assoc]

/-- Each of the tokens of pieces is that of a piece, and stands where the pieces in front of it
end. -/
theorem Piece.exists_of_tokensAt {ps : List Piece} {n : Nat} {before behind : List (Nat × Token)}
    {x : Nat × Token} (h : tokensAt n ps = before ++ x :: behind) :
    ∃ qs q rs m, ps = qs ++ q :: rs ∧ before = tokensAt n qs ∧
      x = (n + Text.byteLength (text qs), q.token) ∧ behind = tokensAt m rs := by
  induction before generalizing n ps with
  | nil =>
    cases ps with
    | nil => cases h
    | cons q ps =>
      obtain ⟨rfl, rfl⟩ := List.cons.inj h
      exact ⟨[], q, ps, _, rfl, rfl, rfl, rfl⟩
  | cons y before ih =>
    cases ps with
    | nil => cases h
    | cons p ps =>
      obtain ⟨rfl, htail⟩ := List.cons.inj h
      obtain ⟨qs, q, rs, m, rfl, rfl, rfl, rfl⟩ := ih htail
      refine ⟨p :: qs, q, rs, m, rfl, rfl, ?_, rfl⟩
      rw [text_cons, Text.byteLength_append, Nat.add_assoc]

namespace Lexeme

variable {p : Nat} {t rest : Text} {l : Lexeme}

theorem scan_nil (p : Nat) : scan p [] = .done := by
  rw [scan, dif_pos rfl]

/-- The lexeme that is cut off a source is the first that is scanned. -/
theorem scan_of_cut (hne : t ≠ []) (hcut : cut t = .ok (l, rest)) (hraw : l.rawName? = none) :
    scan p t = (scan (p + Text.byteLength l.written) rest).cons p l := by
  rw [scan, dif_neg hne]
  split
  · next heq =>
    rw [hcut] at heq
    exact absurd heq (by simp)
  · next heq =>
    rw [hcut] at heq
    obtain ⟨rfl, rfl⟩ := Prod.mk.inj (Except.ok.inj heq)
    rw [hraw]

/-- The content of a raw element is scanned as one piece, up to its end tag. -/
theorem scan_of_cut_raw {name body close : Text} (hne : t ≠ [])
    (hcut : cut t = .ok (l, rest)) (hraw : l.rawName? = some name)
    (hbody : Text.breakBefore (closesRaw name) rest = (body, close)) :
    scan p t =
      if close = [] then .cons p l (.failed (.unclosed name p))
      else if body = [] then (scan (p + Text.byteLength l.written) close).cons p l
      else .cons p l (.cons (p + Text.byteLength l.written) (raw body)
        (scan (p + Text.byteLength l.written + Text.byteLength body) close)) := by
  rw [scan, dif_neg hne]
  split
  · next heq =>
    rw [hcut] at heq
    exact absurd heq (by simp)
  · next heq =>
    rw [hcut] at heq
    obtain ⟨rfl, rfl⟩ := Prod.mk.inj (Except.ok.inj heq)
    rw [hraw]
    dsimp only
    rw [hbody]

end Lexeme

/-- The tokens of a source that begins at `position`. -/
def Token.scanFrom (position : Nat) (t : Text) : Reading Token :=
  (Lexeme.scan position t).interpret ofLexeme

theorem Reading.interpret_cons {α β : Type} {f : Nat → α → Except MarkupFault β} {p : Nat}
    {item : α} {meaning : β} (h : f p item = .ok meaning) (r : Reading α) :
    (r.cons p item).interpret f = (r.interpret f).cons p meaning := by
  simp only [interpret, cons, interpretAll, h]

namespace Reading

/-- Puts pieces in front. -/
def after {α : Type} (items : List (Nat × α)) (r : Reading α) : Reading α :=
  ⟨items ++ r.items, r.fault⟩

theorem after_cons {α : Type} (p : Nat) (item : α) (items : List (Nat × α)) (r : Reading α) :
    r.after ((p, item) :: items) = (r.after items).cons p item := rfl

theorem after_append {α : Type} (items more : List (Nat × α)) (r : Reading α) :
    r.after (items ++ more) = (r.after more).after items := by
  simp [after]

end Reading

namespace Token

variable {p : Nat} {t rest : Text} {l : Lexeme} {token : Token}

theorem scanFrom_nil (p : Nat) : scanFrom p [] = .done := by
  rw [scanFrom, Lexeme.scan_nil]
  rfl

/-- A lexeme that is cut off comes first among the tokens. -/
theorem scanFrom_of_cut (hne : t ≠ []) (hcut : Lexeme.cut t = .ok (l, rest))
    (hraw : l.rawName? = none) (hmeans : l.Means token) :
    scanFrom p t = (scanFrom (p + Text.byteLength l.written) rest).cons p token := by
  rw [scanFrom, Lexeme.scan_of_cut hne hcut hraw, Reading.interpret_cons (hmeans.ofLexeme p)]
  rfl

/-- Behind the start tag of a raw element its content comes next, if it has any. -/
theorem scanFrom_of_cut_raw {name body close : Text} (hne : t ≠ [])
    (hcut : Lexeme.cut t = .ok (l, rest)) (hraw : l.rawName? = some name)
    (hmeans : l.Means token)
    (hbody : Text.breakBefore (Lexeme.closesRaw name) rest = (body, close)) (hclose : close ≠ []) :
    scanFrom p t = (scanFrom (p + Text.byteLength l.written + Text.byteLength body) close).after
      ((p, token) :: Piece.tokensAt (p + Text.byteLength l.written) (Piece.ofRaw body)) := by
  have hbodyMeans : ∀ q, ofLexeme q (.raw body) = .ok (.text body) := fun _ => rfl
  rw [scanFrom, Lexeme.scan_of_cut_raw hne hcut hraw hbody, if_neg hclose, Piece.ofRaw]
  split
  · next hempty =>
    subst hempty
    rw [Reading.interpret_cons (hmeans.ofLexeme p)]
    rfl
  · rw [Reading.interpret_cons (hmeans.ofLexeme p), Reading.interpret_cons (hbodyMeans _)]
    rfl

/-- **Scanning goes on where a reading ends.** -/
theorem scanFrom_of_reads {ps : List Piece} (h : Reads t ps rest) (p : Nat) :
    scanFrom p t =
      (scanFrom (p + Text.byteLength (Piece.text ps)) rest).after (Piece.tokensAt p ps) := by
  induction h generalizing p with
  | done => rfl
  | piece hne hcut hraw hmeans _ ih =>
    rw [scanFrom_of_cut hne hcut hraw hmeans, ih, Piece.tokensAt, Reading.after_cons,
      Piece.text_cons, Text.byteLength_append, Nat.add_assoc]
  | raw hne hcut hraw hmeans hbody hclose _ ih =>
    rw [scanFrom_of_cut_raw hne hcut hraw hmeans hbody hclose, ih, Piece.tokensAt,
      Piece.tokensAt_append, ← List.cons_append, Reading.after_append, Piece.text_cons,
      Piece.text_append, Piece.text_ofRaw, Text.byteLength_append, Text.byteLength_append]
    simp only [Nat.add_assoc]

end Token

/-- **A complete reading is what the source is scanned as.** -/
theorem scan_of_reads {t : Text} {ps : List Piece} (h : Reads t ps []) (p : Nat) :
    Token.scanFrom p t = ⟨Piece.tokensAt p ps, none⟩ := by
  rw [Token.scanFrom_of_reads h, Token.scanFrom_nil, Reading.after]
  exact congrArg (Reading.mk · none) (List.append_nil _)

/-! ## 3. Where a reading ends -/

namespace Token

variable {p : Nat} {t rest : Text} {l : Lexeme} {items : List (Nat × Token)} {found : MarkupFault}

/-- `Breaks p t items found`: no piece can be read off `t`, which stands at `p`, for the reason
`found`.  Of a raw element whose end tag is missing, the start tag is still scanned. -/
inductive Breaks (p : Nat) (t : Text) : List (Nat × Token) → MarkupFault → Prop
  | cut {cause : Malformation} (hcut : Lexeme.cut t = .error cause) :
    Breaks p t [] (.malformed cause p)
  | lexeme {l : Lexeme} {rest : Text} {found : MarkupFault} (hcut : Lexeme.cut t = .ok (l, rest))
      (hfault : ofLexeme p l = .error found) : Breaks p t [] found
  | raw {l : Lexeme} {rest : Text} {e : Element} (hcut : Lexeme.cut t = .ok (l, rest))
      (hmeans : l.Means (.opening e)) (hraw : isRawName e.name = true)
      (hends : (Text.breakBefore (Lexeme.closesRaw e.name) rest).2 = []) :
    Breaks p t [(p, .opening e)] (.unclosed e.name p)

theorem Breaks.ne_nil (h : Breaks p t items found) : t ≠ [] := by
  rintro rfl
  have hnil : ∀ {l : Lexeme} {rest : Text}, Lexeme.cut [] = .ok (l, rest) → l = .text [] :=
    fun hcut => (Prod.mk.inj (Except.ok.inj hcut)).1.symm
  cases h with
  | cut hcut => cases hcut
  | lexeme hcut hfault =>
    rw [hnil hcut] at hfault
    cases hfault
  | raw hcut hmeans =>
    rw [hnil hcut] at hmeans
    cases hmeans

/-- A lexeme that is cut off comes first, whatever follows it. -/
theorem exists_scan_eq_cons (hne : t ≠ []) (hcut : Lexeme.cut t = .ok (l, rest)) :
    ∃ r : Reading Lexeme, Lexeme.scan p t = r.cons p l := by
  cases hraw : l.rawName? with
  | none => exact ⟨_, Lexeme.scan_of_cut hne hcut hraw⟩
  | some name =>
    have hscan := @Lexeme.scan_of_cut_raw p _ _ _ _ _ _ hne hcut hraw rfl
    split at hscan
    · exact ⟨_, hscan⟩
    · split at hscan
      · exact ⟨_, hscan⟩
      · exact ⟨_, hscan⟩

/-- **Where no piece can be read, scanning ends**, and gives the reason. -/
theorem scanFrom_of_breaks (h : Breaks p t items found) :
    scanFrom p t = ⟨items, some found⟩ := by
  have hne := h.ne_nil
  cases h with
  | cut hcut =>
    rw [scanFrom, Lexeme.scan, dif_neg hne]
    split
    · next heq =>
      obtain rfl := Except.error.inj (hcut.symm.trans heq)
      rfl
    · next heq => cases hcut.symm.trans heq
  | lexeme hcut hfault =>
    obtain ⟨r, hr⟩ := @exists_scan_eq_cons p _ _ _ hne hcut
    rw [scanFrom, hr, Reading.interpret, Reading.cons, Reading.interpretAll, hfault]
    rfl
  | raw hcut hmeans hraw hends =>
    have hname := Lexeme.rawName?_of_opening hmeans
    rw [if_pos hraw] at hname
    rw [scanFrom, Lexeme.scan_of_cut_raw hne hcut hname rfl, if_pos hends,
      Reading.interpret_cons (hmeans.ofLexeme p)]
    rfl

/-- **Every source can be read up to its end, or up to a place where no piece can be read.** -/
theorem exists_reads_until (p : Nat) (t : Text) :
    ∃ ps rest, Reads t ps rest ∧ (rest = [] ∨
      ∃ items found, Breaks (p + Text.byteLength (Piece.text ps)) rest items found) := by
  by_cases hne : t = []
  · exact ⟨[], t, .done, Or.inl hne⟩
  · cases hcut : Lexeme.cut t with
    | error cause => exact ⟨[], t, .done, Or.inr ⟨[], _, .cut hcut⟩⟩
    | ok r =>
      obtain ⟨l, rest⟩ := r
      have hshorter := Lexeme.length_of_cut hne hcut
      cases hlexeme : ofLexeme p l with
      | error found => exact ⟨[], t, .done, Or.inr ⟨[], found, .lexeme hcut hlexeme⟩⟩
      | ok token =>
        have hmeans : l.Means token := ofLexeme_position hlexeme
        cases hraw : l.rawName? with
        | none =>
          obtain ⟨ps, last, hreads, hlast⟩ :=
            exists_reads_until (p + Text.byteLength l.written) rest
          refine ⟨_, last, .piece hne hcut hraw hmeans hreads, ?_⟩
          rwa [Piece.text_cons, Text.byteLength_append, ← Nat.add_assoc]
        | some name =>
          obtain ⟨e, rfl, rfl, heraw⟩ := Lexeme.exists_opening_of_rawName? hmeans hraw
          cases hbody : Text.breakBefore (Lexeme.closesRaw e.name) rest with
          | mk body close =>
            by_cases hclose : close = []
            · refine ⟨[], t, .done, Or.inr ⟨_, _, .raw hcut hmeans heraw ?_⟩⟩
              rw [hbody, hclose]
            · have hbehind : close.length < t.length := by
                have hsplit := congrArg List.length (Text.append_of_breakBefore hbody)
                rw [List.length_append] at hsplit
                omega
              obtain ⟨ps, last, hreads, hlast⟩ := exists_reads_until
                (p + Text.byteLength l.written + Text.byteLength body) close
              refine ⟨_, last, .raw hne hcut hraw hmeans hbody hclose hreads, ?_⟩
              rwa [Piece.text_cons, Piece.text_append, Piece.text_ofRaw, Text.byteLength_append,
                Text.byteLength_append, ← Nat.add_assoc, ← Nat.add_assoc]
termination_by t.length

end Token

/-- **A source that is scanned without faults can be read**, and its tokens are those of the pieces
that it is made of. -/
theorem exists_reads {t : Text} {p : Nat} {items : List (Nat × Token)}
    (h : Token.scanFrom p t = ⟨items, none⟩) :
    ∃ ps, Reads t ps [] ∧ items = Piece.tokensAt p ps := by
  obtain ⟨ps, rest, hreads, rfl | ⟨items', found, hbreaks⟩⟩ := Token.exists_reads_until p t
  · rw [scan_of_reads hreads] at h
    exact ⟨ps, hreads, (Reading.mk.inj h).1.symm⟩
  · rw [Token.scanFrom_of_reads hreads, Token.scanFrom_of_breaks hbreaks] at h
    cases (Reading.mk.inj h).2

end Stencil
