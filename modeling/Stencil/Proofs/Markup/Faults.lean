/-
# Why markup is refused

Two faults may lie in one source, and the one further left is reported although the scan, which is
done first, may have found the other.  `Tree.Fails source fault` says without scan and stack when a
source is refused, and for which reason.  Every reason is about a place that reading comes to: no
piece can be read there, or there is the start tag of an element that stays open, or an end tag that
is not that of the innermost element.

A source is refused exactly for the reasons that it has (`Tree.parse_eq_error_iff`), so it has at
most one.
-/
import Stencil.Proofs.Markup.Places
import Stencil.Proofs.Markup.Soundness

namespace Stencil

namespace Tree

open Token (Stacked Refuses Breaks)

/-! ## 1. The exact condition of refusal -/

variable {source rest behind name : Text} {p : Nat} {es : List Element} {e : Element}
  {ps : List Piece} {fault : MarkupFault} {token : Token}

/-- `Fails source fault`: the source is not markup, and `fault` is what is wrong with it. -/
inductive Fails (source : Text) : MarkupFault → Prop
  /-- No piece can be read. -/
  | breaks {p : Nat} {es : List Element} {rest : Text} {items : List (Nat × Token)}
      {fault : MarkupFault} (harrives : Arrives source p es rest)
      (hbreaks : Breaks p rest items fault) : Fails source fault
  /-- An element is opened, and up to the end of the source only whole trees follow. -/
  | unclosed {p : Nat} {es : List Element} {rest behind : Text} {e : Element} {ps : List Piece}
      {ts : List Tree} (harrives : Arrives source p es rest)
      (hbegins : (Token.opening e).Begins rest behind) (hvoid : e.isVoid = false)
      (hraw : isRawName e.name = false) (hreads : Reads behind ps [])
      (hinside : Token.Derives (ps.map Piece.token) ts) : Fails source (.unclosed e.name p)
  /-- An end tag is not that of the innermost element. -/
  | mismatched {p : Nat} {innermost : Element} {outer : List Element} {rest behind name : Text}
      (harrives : Arrives source p (innermost :: outer) rest)
      (hbegins : (Token.closing name).Begins rest behind) (hvoid : isVoidName name = false)
      (hname : Text.sameFold innermost.name name = false) :
    Fails source (.mismatched innermost.name name p)
  /-- There is an end tag where no element is open. -/
  | unexpectedEnd {p : Nat} {rest behind name : Text} (harrives : Arrives source p [] rest)
      (hbegins : (Token.closing name).Begins rest behind) (hvoid : isVoidName name = false) :
    Fails source (.unexpectedEnd name p)

/-- Trees are built of what is read first, and then of what is scanned behind it. -/
theorem parse_eq_nest (h : Reads source ps rest) :
    parse source =
      Token.nest (Token.scanFrom (Text.byteLength (Piece.text ps)) rest).fault [] []
        (Piece.tokensAt 0 ps ++
          (Token.scanFrom (Text.byteLength (Piece.text ps)) rest).items) := by
  have hscan : Token.scan source = _ := Token.scanFrom_of_reads h 0
  rw [Nat.zero_add] at hscan
  rw [parse, hscan]
  rfl

/-- **The building of trees comes to every place that reading comes to**, with the same elements
open. -/
theorem Arrives.parse_eq (h : Arrives source p es rest) :
    ∃ opened done, opened.map OpenElement.element = es ∧
      parse source = Token.nest (Token.scanFrom p rest).fault opened done
        (Token.scanFrom p rest).items := by
  obtain ⟨ps, hreads, hopens, rfl⟩ := h
  obtain ⟨opened, done, hes, hstacked⟩ := hopens.exists_stacked (map_snd_tokensAt 0 ps)
  exact ⟨opened, done, hes, by rw [parse_eq_nest hreads, hstacked.nest_eq]⟩

theorem parse_of_breaks (h : Arrives source p es rest) {items : List (Nat × Token)}
    (hbreaks : Breaks p rest items fault) : parse source = .error fault := by
  obtain ⟨opened, done, -, hparse⟩ := h.parse_eq
  rw [hparse, Token.scanFrom_of_breaks hbreaks]
  exact Token.nest_of_breaks hbreaks opened done

theorem parse_of_refuses {opened : List OpenElement} {done : List Tree}
    (hparse : parse source = Token.nest (Token.scanFrom p rest).fault opened done
      (Token.scanFrom p rest).items)
    (hbegins : (Token.closing name).Begins rest behind) (hvoid : isVoidName name = false)
    (hrefuses : Refuses p name opened fault) : parse source = .error fault := by
  have hne := hbegins.ne_nil nofun
  obtain ⟨l, hcut, hmeans⟩ := hbegins
  rw [hparse, Token.scanFrom_of_cut hne hcut (Lexeme.rawName?_of_closing hmeans) hmeans]
  exact Token.nest_of_refuses hvoid hrefuses

/-- **A source is refused for each reason that it has.** -/
theorem parse_of_fails (h : Fails source fault) : parse source = .error fault := by
  cases h with
  | breaks harrives hbreaks => exact parse_of_breaks harrives hbreaks
  | unclosed harrives hbegins hvoid hraw hreads hinside =>
    have hne := hbegins.ne_nil nofun
    obtain ⟨opened, done, -, hparse⟩ := harrives.parse_eq
    obtain ⟨l, hcut, hmeans⟩ := hbegins
    have hname := Lexeme.rawName?_of_opening hmeans
    rw [if_neg (by simp [hraw])] at hname
    rw [hparse, Token.scanFrom_of_cut hne hcut hname hmeans, scan_of_reads hreads]
    dsimp only [Reading.cons]
    rw [Token.nest_of_builds (.opening hvoid), ← List.append_nil (Piece.tokensAt _ _),
      Token.nest_of_derives hinside (map_snd_tokensAt _ _)]
    rfl
  | mismatched harrives hbegins hvoid hname =>
    obtain ⟨opened, done, hes, hparse⟩ := harrives.parse_eq
    obtain ⟨o, opened, rfl, rfl, rfl⟩ := List.map_eq_cons_iff.mp hes
    exact parse_of_refuses hparse hbegins hvoid (.mismatched hname)
  | unexpectedEnd harrives hbegins hvoid =>
    obtain ⟨opened, done, hes, hparse⟩ := harrives.parse_eq
    obtain rfl := List.map_eq_nil_iff.mp hes
    exact parse_of_refuses hparse hbegins hvoid .unexpectedEnd

/-! ## 2. Every refusal has its reason -/

/-- **What is in front of a tag leads to a place**, where the tag is. -/
theorem exists_arrives {before after : List (Nat × Token)} {opened : List OpenElement}
    {done : List Tree} (hreads : Reads source ps rest)
    (hps : Piece.tokensAt 0 ps = before ++ (p, token) :: after) (htoken : ∀ t, token ≠ .text t)
    (hstacked : Stacked before opened done) :
    ∃ mid q rs, Arrives source p (opened.map OpenElement.element) mid ∧ q.token = token ∧
      Reads mid (q :: rs) rest ∧ after.map Prod.snd = rs.map Piece.token := by
  obtain ⟨qs, q, rs, m, rfl, rfl, hplace, rfl⟩ := Piece.exists_of_tokensAt hps
  obtain ⟨rfl, rfl⟩ := Prod.mk.inj hplace
  obtain ⟨mid, hqs, hmid⟩ := hreads.part htoken
  have hopens := hstacked.opens
  rw [map_snd_tokensAt] at hopens
  exact ⟨mid, q, rs, ⟨qs, hqs, hopens, Nat.zero_add _⟩, rfl, hmid, map_snd_tokensAt m rs⟩

theorem fails_of_refuses {before after : List (Nat × Token)} {opened : List OpenElement}
    {done : List Tree} (hreads : Reads source ps rest)
    (hps : Piece.tokensAt 0 ps = before ++ (p, .closing name) :: after)
    (hstacked : Stacked before opened done) (hvoid : isVoidName name = false)
    (hrefuses : Refuses p name opened fault) : Fails source fault := by
  obtain ⟨mid, q, rs, harrives, hq, hmid, -⟩ := exists_arrives hreads hps nofun hstacked
  obtain ⟨behind, hbegins⟩ := Token.begins_of_reads hmid
  rw [hq] at hbegins
  cases hrefuses with
  | mismatched hname => exact .mismatched harrives hbegins hvoid hname
  | unexpectedEnd => exact .unexpectedEnd harrives hbegins hvoid

/-- Behind the start tag of a raw element not only trees follow: there is its end tag. -/
theorem isRawName_eq_false_of_orderly {tokens : List Token} {ts : List Tree}
    (h : Token.Orderly (.opening e :: tokens)) (hinside : Token.Derives tokens ts) :
    isRawName e.name = false := by
  cases h with
  | cons htoken _ => exact htoken.2
  | @raw _ n content after _ _ _ hcontent hvoid htokens _ =>
    subst htokens
    -- in front of one more end tag, the trees would have to end in front of the first
    have hall : content ++ .closing n :: (after ++ [.closing []]) =
        (content ++ .closing n :: after) ++ .closing [] :: [] := by simp
    have hends := (hinside.eq_of_raw hvoid hcontent hall).1
    exact absurd hends (by simp)

/-- **At the end of the source the innermost element is the one that is reported.** -/
theorem fails_of_open {innermost : OpenElement} {outer : List OpenElement} {done : List Tree}
    (hreads : Reads source ps []) (h : Stacked (Piece.tokensAt 0 ps) (innermost :: outer) done) :
    Fails source (.unclosed innermost.element.name innermost.position) := by
  generalize hitems : Piece.tokensAt 0 ps = items at h
  cases h with
  | inside hbefore hvoid hinside =>
    obtain ⟨mid, q, rs, harrives, hq, hmid, hafter⟩ := exists_arrives hreads hitems nofun hbefore
    rw [hafter] at hinside
    have horderly := hmid.orderly
    rw [List.map_cons, hq] at horderly
    have hraw := isRawName_eq_false_of_orderly horderly hinside
    cases hmid with
    | piece _ hcut _ hmeans hrest =>
      dsimp only at hq
      subst hq
      exact .unclosed harrives ⟨_, hcut, hmeans⟩ hvoid hraw hrest hinside
    | raw _ _ hsome hmeans _ _ _ =>
      dsimp only at hq
      subst hq
      have hname := Lexeme.rawName?_of_opening hmeans
      rw [if_neg (by simp [hraw])] at hname
      cases hsome.symm.trans hname

/-- **A source that is refused has a reason.**  It is read as far as possible; then either an end
tag among what was read is the first that is refused, or the reading ends with elements open. -/
theorem fails_of_parse (h : parse source = .error fault) : Fails source fault := by
  obtain ⟨ps, rest, hreads, hend⟩ := Token.exists_reads_until 0 source
  rw [Nat.zero_add] at hend
  have hstates := Token.stacked_or_refuses Token.stacked_nil (Piece.tokensAt 0 ps)
  simp only [List.nil_append] at hstates
  rcases hstates with ⟨opened, done, hstacked⟩ |
    ⟨inside, p, name, after, opened, done, found, hps, hstacked, hvoid, hrefuses⟩
  · rcases hend with rfl | ⟨items, found, hbreaks⟩
    · rw [parse_eq_nest hreads, Token.scanFrom_nil, hstacked.nest_eq] at h
      cases opened with
      | nil => cases h
      | cons innermost outer =>
        obtain rfl := Except.error.inj h
        exact fails_of_open hreads hstacked
    · have hopens := hstacked.opens
      rw [map_snd_tokensAt] at hopens
      have harrives : Arrives source _ _ rest := ⟨ps, hreads, hopens, rfl⟩
      obtain rfl := Except.error.inj ((parse_of_breaks harrives hbreaks).symm.trans h)
      exact .breaks harrives hbreaks
  · have hparse := parse_eq_nest hreads
    rw [hps, List.append_assoc, hstacked.nest_eq, List.cons_append,
      Token.nest_of_refuses hvoid hrefuses] at hparse
    obtain rfl := Except.error.inj (hparse.symm.trans h)
    exact fails_of_refuses hreads hps hstacked hvoid hrefuses

/-- **A source is refused exactly for the reasons that it has.** -/
theorem parse_eq_error_iff : parse source = .error fault ↔ Fails source fault :=
  ⟨fails_of_parse, parse_of_fails⟩

end Tree

/-- A document is refused for what its trees are refused for. -/
theorem Document.parse_eq_error {source : Text} {fault : MarkupFault} :
    parse source = .error fault ↔ Tree.parse source = .error fault := by
  unfold parse
  cases Tree.parse source with
  | ok ts => exact ⟨nofun, nofun⟩
  | error found =>
    exact ⟨fun h => congrArg _ (Except.error.inj h), fun h => congrArg _ (Except.error.inj h)⟩

end Stencil
