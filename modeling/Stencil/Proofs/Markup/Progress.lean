/-
# One pass over a source

`Tree.parse` scans a source and then builds trees of its tokens.  Both can be done in one pass: a
loop keeps a byte offset, takes the piece off the source that stands there, builds with it, and goes
on where the piece ends.  `Pass.iterate` is an iteration of this loop.  It slices the source at byte
offsets, which fails inside of a character; `Pass.run` is the loop with fuel, and gives nothing
without fuel or where a slice fails.

An iteration that finds no fault moves the offset forward, to where a character ends, and leaves as
much to be built as there was before it (`Pass.advances`).  So the loop comes to an end on every
source, and to what the source is parsed as (`Tree.parse_progresses`).
-/
import Stencil.Proofs.Markup.Grammar

namespace Stencil

/-! ## 1. Slices -/

namespace Text

/-- What is left of a text behind so many bytes; nothing if they end inside of a character, or
behind the text. -/
def dropBytes? : Nat → Text → Option Text
  | 0, t => some t
  | _ + 1, [] => none
  | n + 1, c :: t => if n + 1 < c.utf8Size then none else dropBytes? (n + 1 - c.utf8Size) t

/-- A slice where a character ends does not fail. -/
theorem dropBytes?_append (s t : Text) : dropBytes? (byteLength s) (s ++ t) = some t := by
  induction s with
  | nil => rw [byteLength_nil, List.nil_append, dropBytes?]
  | cons c s ih =>
    have hsize := c.utf8Size_pos
    obtain ⟨n, hn⟩ := Nat.exists_eq_add_of_le' (Nat.le_add_right_of_le hsize :
      1 ≤ c.utf8Size + byteLength s)
    rw [byteLength_cons, hn, List.cons_append, dropBytes?, if_neg (by omega), ← hn,
      Nat.add_sub_cancel_left, ih]

example : dropBytes? 1 ['é', 'x'] = none ∧ dropBytes? 2 ['é', 'x'] = some ['x'] := by decide

end Text

/-! ## 2. The loop -/

namespace Token

/-- What a token at `p` makes of the open elements and of the trees that are finished inside the
innermost of them. -/
def build (p : Nat) (opened : List OpenElement) (done : List Tree) :
    Token → Except MarkupFault (List OpenElement × List Tree)
  | text t => .ok (opened, .leaf (.text t) :: done)
  | doctype t => .ok (opened, .leaf (.doctype t) :: done)
  | dropped => .ok (opened, done)
  | empty e => .ok (opened, .leaf (.element e) :: done)
  | opening e =>
    if e.isVoid then .ok (opened, .leaf (.element e) :: done) else .ok (⟨e, p, done⟩ :: opened, [])
  | closing name =>
    if isVoidName name then .ok (opened, done)
    else
      match opened with
      | [] => .error (.unexpectedEnd name p)
      | innermost :: outer =>
        if Text.sameFold innermost.element.name name then
          .ok (outer, .node (.element innermost.element) done.reverse :: innermost.before)
        else .error (.mismatched innermost.element.name name p)

/-- Trees are built token by token. -/
theorem nest_cons (fault : Option MarkupFault) (opened : List OpenElement) (done : List Tree)
    (p : Nat) (token : Token) (rest : List (Nat × Token)) :
    nest fault opened done ((p, token) :: rest) =
      (token.build p opened done).bind fun (opened', done') => nest fault opened' done' rest := by
  rw [nest.eq_def, build.eq_def]
  cases token with
  | opening e => dsimp only; split <;> rfl
  | closing name =>
    dsimp only
    split
    · rfl
    · cases opened with
      | nil => rfl
      | cons innermost outer => dsimp only; split <;> rfl
  | _ => rfl

/-- A start tag is built with whatever it stands in. -/
theorem exists_build_opening (p : Nat) (opened : List OpenElement) (done : List Tree)
    (e : Element) : ∃ r, (opening e).build p opened done = .ok r := by
  rw [build]
  split
  · exact ⟨_, rfl⟩
  · exact ⟨_, rfl⟩

end Token

/-- Where a pass over a source stands. -/
structure Pass where
  /-- Where the part of the source begins that is not read yet. -/
  position : Nat
  opened : List OpenElement
  done : List Tree

/-- What an iteration of a pass takes off the source. -/
structure Move where
  start : Nat
  lexeme : Lexeme
  /-- The content of the raw element that the lexeme opens, if it opens one. -/
  body : Option Text
  stop : Nat

/-- What a pass comes to, and by which moves. -/
structure Trace where
  result : Except MarkupFault (List Tree)
  moves : List Move

namespace Pass

/-- Takes the content of the raw element that was opened at `start`. -/
def takeRaw (source name : Text) (start : Nat) (s : Pass) :
    Option (Except MarkupFault (Pass × Text)) := do
  let rest ← Text.dropBytes? s.position source
  match Text.breakBefore (Lexeme.closesRaw name) rest with
  | (_, []) => some (.error (.unclosed name start))
  | (body, _ :: _) =>
    let done := if body = [] then s.done else .leaf (.text body) :: s.done
    some (.ok (⟨s.position + Text.byteLength body, s.opened, done⟩, body))

/-- Takes the piece that stands where the pass does. -/
def iterate (source : Text) (s : Pass) : Option (Except MarkupFault (Pass × Move)) := do
  let rest ← Text.dropBytes? s.position source
  match Lexeme.cut rest with
  | .error cause => some (.error (.malformed cause s.position))
  | .ok (l, _) =>
    match Token.ofLexeme s.position l with
    | .error found => some (.error found)
    | .ok token =>
      match token.build s.position s.opened s.done with
      | .error found => some (.error found)
      | .ok (opened, done) =>
        let behind : Pass := ⟨s.position + Text.byteLength l.written, opened, done⟩
        match l.rawName? with
        | none => some (.ok (behind, ⟨s.position, l, none, behind.position⟩))
        | some name => do
          let taken ← behind.takeRaw source name s.position
          some (taken.map fun (after, body) =>
            (after, ⟨s.position, l, some body, after.position⟩))

/-- What a pass comes to at the end of the source. -/
def finish (s : Pass) : Except MarkupFault (List Tree) :=
  match s.opened with
  | [] => .ok s.done.reverse
  | innermost :: _ => .error (.unclosed innermost.element.name innermost.position)

/-- Iterates up to the end of the source, or up to a fault. -/
def run (source : Text) (s : Pass) : (fuel : Nat) → Option Trace
  | 0 => none
  | fuel + 1 =>
    if s.position < Text.byteLength source then
      match s.iterate source with
      | none => none
      | some (.error fault) => some ⟨.error fault, []⟩
      | some (.ok (behind, move)) => do
        let later ← run source behind fuel
        some ⟨later.result, move :: later.moves⟩
    else some ⟨s.finish, []⟩

/-- Where a pass begins. -/
def start : Pass := ⟨0, [], []⟩

end Pass

/-! ## 3. An iteration -/

namespace Move

/-- The piece of the source that was taken. -/
def written (m : Move) : Text := m.lexeme.written ++ m.body.getD []

/-- What was taken by moves one after the other. -/
def text (ms : List Move) : Text := ms.flatMap written

@[simp] theorem text_nil : text [] = [] := rfl

@[simp] theorem text_cons (m : Move) (ms : List Move) : text (m :: ms) = m.written ++ text ms := rfl

/-- The move takes what stands in the source between `before` and `behind`, and that is not
nothing. -/
structure Fits (source before behind : Text) (m : Move) : Prop where
  split : before ++ m.written ++ behind = source
  start_eq : m.start = Text.byteLength before
  stop_eq : m.stop = Text.byteLength (before ++ m.written)
  start_lt_stop : m.start < m.stop
  stop_le : m.stop ≤ Text.byteLength source
  /-- A run of text is not empty, and ends at the end of the source or where markup begins. -/
  run : ∀ t, m.lexeme = .text t →
    m.written = t ∧ t ≠ [] ∧ (behind = [] ∨ Lexeme.beginsMarkup behind = true)
  /-- The content of a raw element ends where an end tag begins. -/
  raw : ∀ body, m.body = some body →
    m.stop = m.start + Text.byteLength m.lexeme.written + Text.byteLength body ∧
      ∃ t, behind = '<' :: '/' :: t

variable {source before rest behind : Text} {m : Move}

/-- What stands behind a move is shorter than what it was made in. -/
theorem Fits.length_lt (h : m.Fits source before behind) (hrest : m.written ++ behind = rest) :
    behind.length < rest.length := by
  have hne : m.written ≠ [] := by
    intro hnil
    have hstop := h.stop_eq
    rw [hnil, List.append_nil, ← h.start_eq] at hstop
    exact Nat.lt_irrefl _ (hstop ▸ h.start_lt_stop)
  have hpos := List.length_pos_iff.mpr hne
  rw [← hrest, List.length_append]
  omega

/-- A lexeme that is cut off is a move, with the content of the raw element that it opens. -/
theorem fits_of_cut (hsource : before ++ rest = source) (hne : rest ≠ [])
    (hcut : Lexeme.cut rest = .ok (m.lexeme, m.body.getD [] ++ behind))
    (hstart : m.start = Text.byteLength before)
    (hstop : m.stop = m.start + Text.byteLength m.written)
    (hrun : ∀ t, m.lexeme = .text t → m.body = none)
    (hraw : ∀ body, m.body = some body → ∃ t, behind = '<' :: '/' :: t) :
    m.Fits source before behind := by
  obtain ⟨hall, hwritten⟩ := Lexeme.cut_written hne hcut
  have hpos := Text.byteLength_pos hwritten
  have hsplit : before ++ m.written ++ behind = source := by
    rw [← hsource, ← hall, written, List.append_assoc, List.append_assoc]
  have hstopEq : m.stop = Text.byteLength (before ++ m.written) := by
    rw [hstop, hstart, Text.byteLength_append]
  have hlength : Text.byteLength m.written =
      Text.byteLength m.lexeme.written + Text.byteLength (m.body.getD []) :=
    Text.byteLength_append _ _
  refine ⟨hsplit, hstart, hstopEq, by omega, ?_, ?_, ?_⟩
  · rw [hstopEq, ← hsplit, Text.byteLength_append (before ++ m.written)]
    exact Nat.le_add_right _ _
  · intro t ht
    have hnone := hrun t ht
    rw [ht] at hwritten
    rw [ht, hnone] at hcut
    refine ⟨by rw [written, ht, hnone]; exact List.append_nil t, hwritten, ?_⟩
    rcases Lexeme.isMarkup_or_of_cut hcut with ⟨-, hmarkup⟩ | ⟨-, -, hbehind⟩
    · exact hmarkup.elim
    · rw [Option.getD_none, List.nil_append] at hbehind
      rw [hbehind]
      exact Text.breakBefore_holds _ _
  · intro body hbody
    rw [hbody] at hlength
    exact ⟨by rw [hstop, hlength, Nat.add_assoc]; rfl, hraw body hbody⟩

end Move

namespace Pass

variable {source before rest : Text} {s : Pass}

/-- What a pass has to come to, if `rest` is what it has not read yet. -/
def comesTo (s : Pass) (rest : Text) : Except MarkupFault (List Tree) :=
  Token.nest (Token.scanFrom s.position rest).fault s.opened s.done
    (Token.scanFrom s.position rest).items

theorem comesTo_nil (s : Pass) : s.comesTo [] = s.finish := by
  obtain ⟨p, opened, done⟩ := s
  rw [comesTo, Token.scanFrom_nil]
  cases opened <;> rfl

theorem comesTo_of_breaks {items : List (Nat × Token)} {found : MarkupFault}
    (h : Token.Breaks s.position rest items found) : s.comesTo rest = .error found := by
  rw [comesTo, Token.scanFrom_of_breaks h]
  exact Token.nest_of_breaks h s.opened s.done

/-- An iteration finds the fault that the pass comes to, or it makes a move and leaves the pass to
come to the same.  In either case no slice fails. -/
def Advances (source before rest : Text) (s : Pass) : Prop :=
  (∃ fault, s.iterate source = some (.error fault) ∧ s.comesTo rest = .error fault) ∨
    ∃ (s' : Pass) (m : Move) (behind : Text),
      s.iterate source = some (.ok (s', m)) ∧ m.Fits source before behind ∧
        s'.position = m.stop ∧ s'.comesTo behind = s.comesTo rest

section Piece

variable {tail : Text} {l : Lexeme} {token : Token} (hsource : before ++ rest = source)
  (hposition : s.position = Text.byteLength before)

include hsource hposition

/-- The source is sliced where the pass stands. -/
theorem dropBytes?_position : Text.dropBytes? s.position source = some rest := by
  rw [hposition, ← hsource, Text.dropBytes?_append]

/-- The content of a raw element is taken up to its end tag. -/
theorem takeRaw_eq {name body close : Text} (start : Nat)
    (hbody : Text.breakBefore (Lexeme.closesRaw name) rest = (body, close)) :
    s.takeRaw source name start = some (if close = [] then .error (.unclosed name start) else
      .ok (⟨s.position + Text.byteLength body, s.opened,
        if body = [] then s.done else .leaf (.text body) :: s.done⟩, body)) := by
  rw [takeRaw, dropBytes?_position hsource hposition, Option.bind_eq_bind, Option.bind_some, hbody]
  cases close with
  | nil => rfl
  | cons c close => rfl

variable (hne : rest ≠ []) (hcut : Lexeme.cut rest = .ok (l, tail))
  (hlexeme : Token.ofLexeme s.position l = .ok token)

include hne hcut hlexeme

/-- A lexeme that opens no raw element is a move by itself. -/
theorem advances_of_cut (hraw : l.rawName? = none) : s.Advances source before rest := by
  have hscan : Token.scanFrom s.position rest = _ :=
    Token.scanFrom_of_cut hne hcut hraw (Token.ofLexeme_position hlexeme)
  unfold Advances comesTo
  simp only [iterate, dropBytes?_position hsource hposition, Option.bind_eq_bind, Option.bind_some,
    hcut, hlexeme, hraw, hscan, Reading.cons, Token.nest_cons]
  cases hbuild : token.build s.position s.opened s.done with
  | error found => exact Or.inl ⟨found, rfl, rfl⟩
  | ok built =>
    refine Or.inr ⟨_, _, tail, rfl, ?_, rfl, rfl⟩
    refine Move.fits_of_cut hsource hne hcut hposition ?_ (fun _ _ => rfl) (by simp)
    rw [Move.written, Option.getD_none, List.append_nil]

/-- The start tag of a raw element is a move together with the content, if that ends anywhere. -/
theorem advances_of_cut_raw {name : Text} (hraw : l.rawName? = some name) :
    s.Advances source before rest := by
  have hmeans : l.Means token := Token.ofLexeme_position hlexeme
  obtain ⟨e, rfl, rfl, heraw⟩ := Lexeme.exists_opening_of_rawName? hmeans hraw
  obtain ⟨⟨opened, done⟩, hbuild⟩ := Token.exists_build_opening s.position s.opened s.done e
  obtain ⟨body, close, hbody⟩ : ∃ body close,
    Text.breakBefore (Lexeme.closesRaw e.name) tail = (body, close) := ⟨_, _, rfl⟩
  have htail : body ++ close = tail := Text.append_of_breakBefore hbody
  have hbehind : before ++ l.written ++ tail = source := by
    rw [List.append_assoc, (Lexeme.cut_written hne hcut).1, hsource]
  have htake : (Pass.mk (s.position + Text.byteLength l.written) opened done).takeRaw source e.name
      s.position = _ :=
    takeRaw_eq hbehind (by rw [hposition, Text.byteLength_append]) _ hbody
  unfold Advances
  simp only [iterate, dropBytes?_position hsource hposition, Option.bind_eq_bind, Option.bind_some,
    hcut, hlexeme, hraw, hbuild, htake]
  by_cases hclose : close = []
  · rw [if_pos hclose]
    exact Or.inl ⟨_, rfl, comesTo_of_breaks (.raw hcut hmeans heraw (by rw [hbody, hclose]))⟩
  · rw [if_neg hclose]
    refine Or.inr ⟨_, _, close, rfl, ?_, rfl, ?_⟩
    · refine Move.fits_of_cut hsource hne (htail ▸ hcut) hposition ?_ ?_ ?_
      · rw [Move.written, Option.getD_some, Text.byteLength_append, Nat.add_assoc]
      · intro t ht
        have htext : l = .text t := ht
        rw [htext] at hraw
        cases hraw
      · intro _ _
        have hholds := Text.breakBefore_holds (Lexeme.closesRaw e.name) tail
        rw [hbody] at hholds
        obtain ⟨t, ht, -⟩ := Lexeme.exists_of_closesRaw (hholds.resolve_left hclose)
        exact ⟨t, ht⟩
    · -- an empty content leaves no token
      rw [comesTo, comesTo, Token.scanFrom_of_cut_raw hne hcut hraw hmeans hbody hclose,
        Reading.after, List.cons_append, Token.nest_cons, hbuild, Piece.ofRaw]
      dsimp only [Except.bind]
      split
      · next hempty =>
        rw [hempty]
        rfl
      · rw [Piece.tokensAt, List.cons_append, Token.nest_cons]
        rfl

end Piece

/-- **An iteration makes progress** wherever there is anything left of the source. -/
theorem advances (hsource : before ++ rest = source)
    (hposition : s.position = Text.byteLength before) (hne : rest ≠ []) :
    s.Advances source before rest := by
  have hslice := dropBytes?_position hsource hposition
  cases hcut : Lexeme.cut rest with
  | error cause =>
    refine Or.inl ⟨_, ?_, comesTo_of_breaks (.cut hcut)⟩
    simp only [iterate, hslice, Option.bind_eq_bind, Option.bind_some, hcut]
  | ok cutOff =>
    obtain ⟨l, tail⟩ := cutOff
    cases hlexeme : Token.ofLexeme s.position l with
    | error found =>
      refine Or.inl ⟨_, ?_, comesTo_of_breaks (.lexeme hcut hlexeme)⟩
      simp only [iterate, hslice, Option.bind_eq_bind, Option.bind_some, hcut, hlexeme]
    | ok token =>
      cases hraw : l.rawName? with
      | none => exact advances_of_cut hsource hposition hne hcut hlexeme hraw
      | some name => exact advances_of_cut_raw hsource hposition hne hcut hlexeme hraw

/-! ## 4. A run -/

/-- A run that begins behind `before`, where `rest` is left, comes to `result` by `moves`, and ends
where `last` is left. -/
structure Covers (source before rest : Text) (s : Pass) (result : Except MarkupFault (List Tree))
    (moves : List Move) (last : Text) : Prop where
  run_eq : ∀ fuel, rest.length < fuel → s.run source fuel = some ⟨result, moves⟩
  text_append : Move.text moves ++ last = rest
  /-- It ends where the source does, or where an iteration finds the fault that it comes to. -/
  ends : last = [] ∨ ∃ (s' : Pass) (fault : MarkupFault),
    s'.position = Text.byteLength (before ++ Move.text moves) ∧
      s'.iterate source = some (.error fault) ∧ result = .error fault
  fits : ∀ earlier m later, moves = earlier ++ m :: later →
    m.Fits source (before ++ Move.text earlier) (Move.text later ++ last)

/-- Nothing is left at the end of the source. -/
theorem covers_nil (hend : s.position = Text.byteLength source) :
    s.Covers source before [] s.finish [] [] where
  run_eq fuel hfuel := by
    obtain ⟨fuel, rfl⟩ := Nat.exists_eq_add_of_lt hfuel
    rw [run, if_neg (by omega)]
  text_append := rfl
  ends := Or.inl rfl
  fits := by simp

section Move

variable {s' : Pass} {m : Move} {behind last : Text} {moves : List Move}
  {result : Except MarkupFault (List Tree)} {fault : MarkupFault}
  (hmore : s.position < Text.byteLength source)

include hmore

/-- An iteration that finds a fault ends the run. -/
theorem covers_of_error (hposition : s.position = Text.byteLength before)
    (hiterate : s.iterate source = some (.error fault)) :
    s.Covers source before rest (.error fault) [] rest where
  run_eq fuel hfuel := by
    obtain ⟨fuel, rfl⟩ := Nat.exists_eq_add_of_lt hfuel
    rw [run, if_pos hmore, hiterate]
  text_append := rfl
  ends := by
    refine Or.inr ⟨s, fault, ?_, hiterate, rfl⟩
    rw [hposition, Move.text_nil, List.append_nil]
  fits := by simp

/-- A move comes in front of the moves of the run behind it. -/
theorem covers_of_move (hiterate : s.iterate source = some (.ok (s', m)))
    (hrest : m.written ++ behind = rest) (hfits : m.Fits source before behind)
    (h : s'.Covers source (before ++ m.written) behind result moves last) :
    s.Covers source before rest result (m :: moves) last where
  run_eq fuel hfuel := by
    obtain ⟨fuel, rfl⟩ := Nat.exists_eq_add_of_lt hfuel
    have hshorter := hfits.length_lt hrest
    rw [run, if_pos hmore, hiterate]
    dsimp only
    rw [h.run_eq _ (by omega)]
    rfl
  text_append := by rw [Move.text_cons, List.append_assoc, h.text_append, hrest]
  ends := by
    rw [Move.text_cons, ← List.append_assoc]
    exact h.ends
  fits := by
    intro earlier m' later hmoves
    cases earlier with
    | nil =>
      obtain ⟨rfl, rfl⟩ := List.cons.inj hmoves
      rw [Move.text_nil, List.append_nil, h.text_append]
      exact hfits
    | cons first earlier =>
      obtain ⟨rfl, rfl⟩ := List.cons.inj hmoves
      rw [Move.text_cons, ← List.append_assoc]
      exact h.fits _ _ _ rfl

end Move

/-- **A run comes to an end**, and to what the pass has to come to. -/
theorem exists_covers {before rest : Text} {s : Pass} (hsource : before ++ rest = source)
    (hposition : s.position = Text.byteLength before) :
    ∃ moves last, s.Covers source before rest (s.comesTo rest) moves last := by
  by_cases hne : rest = []
  · subst hne
    rw [comesTo_nil]
    exact ⟨[], [], covers_nil (by rw [hposition, ← hsource, List.append_nil])⟩
  · have hmore : s.position < Text.byteLength source := by
      have hpos := Text.byteLength_pos hne
      rw [hposition, ← hsource, Text.byteLength_append]
      omega
    rcases advances hsource hposition hne with ⟨fault, hiterate, hfault⟩ |
      ⟨s', m, behind, hiterate, hfits, hposition', hcomes⟩
    · rw [hfault]
      exact ⟨[], rest, covers_of_error hmore hposition hiterate⟩
    · have hrest : m.written ++ behind = rest := by
        have hwhole : before ++ (m.written ++ behind) = before ++ rest := by
          rw [← List.append_assoc, hfits.split, hsource]
        exact List.append_cancel_left hwhole
      have hshorter := hfits.length_lt hrest
      obtain ⟨moves, last, h⟩ := exists_covers hfits.split (hposition'.trans hfits.stop_eq)
      rw [hcomes] at h
      exact ⟨m :: moves, last, covers_of_move hmore hiterate hrest hfits h⟩
termination_by rest.length

end Pass

/-- **One pass is enough, and makes progress.**  With more fuel than characters it comes to what
the source is parsed as.  Every move goes forward to where a character ends, a run of text is never
empty and ends at the end or where markup begins, and the content of a raw element ends where an
end tag begins.  The moves one after the other take all of the source, unless an iteration finds the
fault for which it is no markup; then they take what is in front of the place. -/
theorem Tree.parse_progresses (source : Text) :
    ∃ moves last,
      (∀ fuel, source.length < fuel →
        Pass.start.run source fuel = some ⟨parse source, moves⟩) ∧
      Move.text moves ++ last = source ∧
      (last = [] ∨ ∃ (s : Pass) (fault : MarkupFault),
        s.position = Text.byteLength (Move.text moves) ∧
          s.iterate source = some (.error fault) ∧ parse source = .error fault) ∧
      ∀ earlier m later, moves = earlier ++ m :: later →
        m.Fits source (Move.text earlier) (Move.text later ++ last) := by
  have hstart : Pass.start.position = Text.byteLength [] := rfl
  obtain ⟨moves, last, h⟩ := Pass.exists_covers (List.nil_append source) hstart
  exact ⟨moves, last, h.run_eq, h.text_append, h.ends, h.fits⟩

-- a `<` that opens nothing belongs to the text, and a raw element may have no content
example : (Pass.start.run "é<<style></style>".toList 18).map
    (fun t => t.moves.map fun m => (m.start, m.stop)) = some [(0, 3), (3, 10), (10, 18)] := by
  decide +kernel

end Stencil
