/-
# How a start tag begins

The end of a tag is the first `>` outside of quotes, and anything may stand in a tag in front of it:
a quote in the name of an element hides what follows it from the search, up to the next quote.  What
the search does with a text is settled by the quote that is open in front of it; `Lexeme.Crosses`
says that it passes the text, and which quote is open behind.

A name that an element was read with can be crossed (`Tag.heads_of_parse`), whatever it is.  An
attribute in double quotes whose value has neither quotes nor `>` leaves the state as it was
(`Lexeme.crosses_valued`), even where a quote is open: then its own quotes close this one and open
it again.  So a name with such an attribute behind it is the beginning of the tag that was meant
(`Lexeme.exists_of_cut_asking`), and an `@if` that comes first is the place of the element in a
chain (`Tree.first_of_parse`), whatever comes behind it, if all of it can be read.
-/
import Stencil.Proofs.Markup.Canonical
import Stencil.Proofs.Markup.Grammar

namespace Stencil

/-! ## 1. Passing a text -/

namespace Lexeme

/-- The quotes that may be open in a tag. -/
def quotes : List (Option Char) := [none, some '"', some '\'']

/-- The quote that is open behind a character. -/
def quoteBehind (quote : Option Char) (c : Char) : Option Char :=
  match quote with
  | none => if c = '"' ∨ c = '\'' then some c else none
  | some open' => if c = open' then none else some open'

/-- The search for the end of a tag, with `quote` open in front of the text, passes it, and `quote'`
is open behind it. -/
def Crosses (quote : Option Char) (s : Text) (quote' : Option Char) : Prop :=
  ∀ t, breakTag quote (s ++ t) = (breakTag quote' t).map fun (a, b) => (s ++ a, b)

/-- The text has neither quotes nor a `>`. -/
def Neutral (s : Text) : Prop := ∀ c ∈ s, c ∉ ['>', '"', '\'']

instance (s : Text) : Decidable (Neutral s) := List.decidableBAll (· ∉ ['>', '"', '\'']) s

variable {quote quote' quote'' : Option Char} {s t a b : Text} {c : Char}

theorem crosses_nil (quote : Option Char) : Crosses quote [] quote := fun t => by simp

theorem Crosses.append (h : Crosses quote s quote') (h' : Crosses quote' t quote'') :
    Crosses quote (s ++ t) quote'' := by
  intro u
  rw [List.append_assoc, h, h', Option.map_map]
  simp [Function.comp_def]

/-- **Only a `>` outside of quotes is not passed.** -/
theorem crosses_char (h : quote = none → c ≠ '>') : Crosses quote [c] (quoteBehind quote c) := by
  intro t
  cases quote with
  | none =>
    rw [List.singleton_append, breakTag, if_neg (h rfl)]
    rfl
  | some open' => rfl

theorem quoteBehind_mem (hquote : quote ∈ quotes) (c : Char) : quoteBehind quote c ∈ quotes := by
  have hmem : ∀ d : Char, d = '"' ∨ d = '\'' → some d ∈ quotes := by
    rintro d (rfl | rfl) <;> decide
  cases quote with
  | none =>
    rw [quoteBehind]
    split
    · next hc => exact hmem c hc
    · decide
  | some open' =>
    rw [quoteBehind]
    split
    · decide
    · exact hquote

/-- **What stands in front of the end of a tag is passed.** -/
theorem exists_crosses (hquote : quote ∈ quotes) (h : breakTag quote (s ++ t) = some (s ++ a, b)) :
    ∃ quote' ∈ quotes, Crosses quote s quote' := by
  induction s generalizing quote with
  | nil => exact ⟨quote, hquote, crosses_nil quote⟩
  | cons c s ih =>
    have hc : quote = none → c ≠ '>' := by
      rintro rfl rfl
      rw [List.cons_append, breakTag, if_pos rfl] at h
      exact absurd (Prod.mk.inj (Option.some.inj h)).1 (List.cons_ne_nil _ _).symm
    have hchar := crosses_char hc
    have htail := hchar (s ++ t)
    rw [List.singleton_append, ← List.cons_append, h] at htail
    obtain ⟨⟨a', b'⟩, htail, heq⟩ := Option.map_eq_some_iff.mp htail.symm
    obtain ⟨ha, rfl⟩ := Prod.mk.inj heq
    obtain rfl := (List.cons.inj ha).2
    obtain ⟨quote', hquote', hcrosses⟩ := ih (quoteBehind_mem hquote c) htail
    exact ⟨quote', hquote', hchar.append hcrosses⟩

/-- What can be passed stands at the front of the tag. -/
theorem Crosses.exists_append (h : Crosses quote s quote')
    (hbreak : breakTag quote (s ++ t) = some (a, b)) : ∃ a', a = s ++ a' := by
  rw [h] at hbreak
  obtain ⟨⟨a', b'⟩, -, heq⟩ := Option.map_eq_some_iff.mp hbreak
  exact ⟨a', (Prod.mk.inj heq).1.symm⟩

/-- A text without quotes and `>` changes nothing. -/
theorem crosses_neutral (hquote : quote ∈ quotes) (hs : Neutral s) : Crosses quote s quote := by
  induction s with
  | nil => exact crosses_nil quote
  | cons c s ih =>
    obtain ⟨hc, hs⟩ := List.forall_mem_cons.mp hs
    simp only [List.mem_cons, List.not_mem_nil, or_false, not_or] at hc
    have hsame : quoteBehind quote c = quote := by
      simp only [quotes, List.mem_cons, List.not_mem_nil, or_false] at hquote
      rcases hquote with rfl | rfl | rfl
      · exact if_neg (not_or.mpr hc.2)
      · exact if_neg hc.2.1
      · exact if_neg hc.2.2
    have hchar : Crosses quote [c] (quoteBehind quote c) := crosses_char fun _ => hc.1
    rw [hsame] at hchar
    exact hchar.append (ih hs)

/-- **An attribute in double quotes leaves open what was open**, if its value has neither quotes nor
a `>`. -/
theorem crosses_valued (hquote : quote ∈ quotes) {name value : Text} (hname : Neutral name)
    (hvalue : Neutral value) : Crosses quote (Written.valued name '"' value).text quote := by
  have hfront : Neutral (' ' :: name ++ ['=']) := by
    intro c hc
    simp only [List.cons_append, List.mem_cons, List.mem_append, List.not_mem_nil, or_false] at hc
    rcases hc with rfl | hc | rfl
    · decide
    · exact hname c hc
    · decide
  have htwice : quoteBehind (quoteBehind quote '"') '"' = quote := by
    simp only [quotes, List.mem_cons, List.not_mem_nil, or_false] at hquote
    rcases hquote with rfl | rfl | rfl <;> rfl
  have hopen : Crosses quote ['"'] (quoteBehind quote '"') := crosses_char fun _ => by decide
  have hclose : Crosses (quoteBehind quote '"') ['"'] (quoteBehind (quoteBehind quote '"') '"') :=
    crosses_char fun _ => by decide
  rw [htwice] at hclose
  have hall := (crosses_neutral hquote hfront).append (hopen.append
    ((crosses_neutral (quoteBehind_mem hquote '"') hvalue).append hclose))
  simpa [Written.text] using hall

end Lexeme

/-! ## 2. Names -/

/-- The name can begin a start tag: it begins with a letter, has no blank in it and is passed by the
search for the end of the tag. -/
structure Tag.Heads (name : Text) : Prop where
  alpha : name.head?.any Char.isAlpha = true
  not_blank : ∀ c ∈ name, Text.isTagBlank c = false
  crosses : ∃ quote ∈ Lexeme.quotes, Lexeme.Crosses none name quote

namespace Tag

variable {name more t rest content : Text}

theorem Heads.exists_cons (h : Heads name) : ∃ c rest, name = c :: rest ∧ c.isAlpha = true := by
  have halpha := h.alpha
  cases name with
  | nil => exact absurd halpha nofun
  | cons c rest => exact ⟨c, rest, rfl, halpha⟩

/-- A name without quotes and `>` is passed. -/
theorem heads_of_neutral (halpha : name.head?.any Char.isAlpha = true)
    (hblank : ∀ c ∈ name, Text.isTagBlank c = false) (hname : Lexeme.Neutral name) : Heads name :=
  ⟨halpha, hblank, none, by decide, Lexeme.crosses_neutral (by decide) hname⟩

/-- A tag that is cut off and that is no end tag begins with a letter, and its end is found from its
beginning on. -/
theorem breakTag_of_cut (hcut : Lexeme.cut t = .ok (.tag content, rest))
    (hslash : content.head? ≠ some '/') :
    content.head?.any Char.isAlpha = true ∧
      Lexeme.breakTag none (content ++ '>' :: rest) = some (content, rest) := by
  obtain ⟨hbegins, -⟩ : Lexeme.beginsMarkup t = true ∧ (Lexeme.tag content).IsMarkup :=
    (Lexeme.isMarkup_or_of_cut hcut).resolve_right fun htext => nomatch htext.2.1
  have hne : t ≠ [] := by
    rintro rfl
    exact absurd hbegins nofun
  obtain rfl : '<' :: (content ++ '>' :: rest) = t := by
    simpa [Lexeme.written] using (Lexeme.cut_written hne hcut).1
  cases content with
  | nil => exact absurd hbegins (by simp [Lexeme.beginsMarkup_lt])
  | cons c content =>
    have hdecl : c ≠ '!' := by
      rintro rfl
      have hdeclares : Lexeme.Declares (content ++ '>' :: rest) _ _ :=
        Lexeme.cutDeclaration_eq_ok.mp hcut
      generalize content ++ '>' :: rest = u at hdeclares
      cases hdeclares
    have hinstr : c ≠ '?' := by
      rintro rfl
      obtain ⟨body, -, -, hbody⟩ := Lexeme.cutInstruction_eq_ok.mp hcut
      exact absurd hbody nofun
    have hslash : c ≠ '/' := fun heq => hslash (congrArg some heq)
    rw [List.cons_append] at hbegins hcut ⊢
    rw [Lexeme.cut_tag hbegins hdecl hinstr] at hcut
    obtain ⟨content', hbreak, heq⟩ := Lexeme.cutTag_eq_ok.mp hcut
    obtain rfl := Lexeme.tag.inj heq
    refine ⟨?_, hbreak⟩
    rw [Lexeme.beginsMarkup_lt] at hbegins
    simpa [hdecl, hinstr, hslash] using hbegins

theorem name_append_dropWhile (content : Text) :
    Tag.name content ++ content.dropWhile (!Text.isTagBlank ·) = content :=
  List.takeWhile_append_dropWhile

/-- The front of a tag up to a blank can begin a start tag. -/
theorem heads_of_cut {front : Text} (hcut : Lexeme.cut t = .ok (.tag (front ++ more), rest))
    (hne : front ≠ []) (hslash : (front ++ more).head? ≠ some '/') : Heads (Tag.name front) := by
  obtain ⟨halpha, hbreak⟩ := breakTag_of_cut hcut hslash
  rw [List.head?_append_of_ne_nil _ hne] at halpha
  have hname : Tag.name front ≠ [] := by
    cases front with
    | nil => exact absurd rfl hne
    | cons c front =>
      rw [Tag.name, List.takeWhile_cons_of_pos (by rw [Text.isTagBlank_of_isAlpha halpha]; rfl)]
      exact List.cons_ne_nil _ _
  rw [← name_append_dropWhile front] at halpha hbreak
  rw [List.head?_append_of_ne_nil _ hname] at halpha
  simp only [List.append_assoc] at hbreak
  refine ⟨halpha, fun c hc => ?_, Lexeme.exists_crosses (by decide) hbreak⟩
  simpa using List.mem_takeWhile_imp hc

end Tag

/-- **The name of an element can begin a start tag**, if a tag was read as this element. -/
theorem Lexeme.Means.heads {t rest : Text} {l : Lexeme} {token : Token} {e : Element}
    (hcut : Lexeme.cut t = .ok (l, rest)) (hmeans : l.Means token)
    (htoken : token = .opening e ∨ token = .empty e) : Tag.Heads e.name := by
  rcases htoken with rfl | rfl
  · cases hmeans.says with
    | @opening content _ hslash hend he =>
      rw [(Tag.element_name he).1]
      have hne : content ≠ [] := by
        rintro rfl
        exact absurd (Tag.breakTag_of_cut hcut hslash).1 nofun
      rw [← List.append_nil content] at hcut hslash
      exact Tag.heads_of_cut hcut hne hslash
  · cases l with
    | tag content =>
      rcases Token.ofTag_cases hmeans with ⟨-, hclosing⟩ | ⟨hslash, hend, e', he, hempty⟩ |
        ⟨-, -, e', -, hopening⟩
      · cases hclosing
      · obtain rfl := Token.empty.inj hempty
        -- the name is read without the last character
        obtain ⟨front, rfl⟩ := List.getLast?_eq_some_iff.mp hend
        rw [List.dropLast_concat] at he
        rw [(Tag.element_name he).1]
        exact Tag.heads_of_cut hcut (by rintro rfl; exact hslash rfl) hslash
      · cases hopening
    | _ => nomatch hmeans.says

/-- The names in the tags of a source can begin start tags. -/
theorem Reads.heads {t rest : Text} {ps : List Piece} (h : Reads t ps rest) :
    ∀ q ∈ ps, ∀ e, q.token = .opening e ∨ q.token = .empty e → Tag.Heads e.name := by
  induction h with
  | done => exact fun q hq => absurd hq List.not_mem_nil
  | piece _ hcut _ hmeans _ ih =>
    exact List.forall_mem_cons.mpr ⟨fun e => hmeans.heads hcut, ih⟩
  | raw _ hcut _ hmeans _ _ _ ih =>
    refine List.forall_mem_cons.mpr ⟨fun e => hmeans.heads hcut, fun q hq e he => ?_⟩
    rcases List.mem_append.mp hq with hq | hq
    · unfold Piece.ofRaw at hq
      split at hq
      · exact absurd hq List.not_mem_nil
      · obtain rfl := List.mem_singleton.mp hq
        rcases he with he | he <;> cases he
    · exact ih q hq e he

/-- **The name of every element that is read can begin a start tag.** -/
theorem Tree.heads_of_parse {source : Text} {ts : List Tree} (h : parse source = .ok ts) :
    EachAll (fun kind _ => ∀ e, kind = .element e → Tag.Heads e.name) ts := by
  obtain ⟨ps, hreads, -⟩ := exists_reads_of_parse h
  have hscan : Token.scan source = ⟨Piece.tokensAt 0 ps, none⟩ := scan_of_reads hreads 0
  refine eachAll_of_parse h fun x hx => ?_
  rw [hscan] at hx
  obtain ⟨q, hq, hqx⟩ : ∃ q ∈ ps, q.token = x.2 := by
    have hmem := List.mem_map_of_mem (f := Prod.snd) hx
    rw [map_snd_tokensAt] at hmem
    exact List.mem_map.mp hmem
  have hheads := hreads.heads q hq
  rw [hqx] at hheads
  cases hx2 : x.2 with
  | opening e =>
    have he : ∀ e', NodeKind.element e = .element e' → Tag.Heads e'.name := by
      rintro _ ⟨⟩
      exact hheads e (Or.inl hx2)
    exact ⟨fun _ => he, fun _ _ _ => he⟩
  | empty e =>
    rintro _ ⟨⟩
    exact hheads e (Or.inr hx2)
  | text t => exact nofun
  | doctype t => exact nofun
  | closing name => trivial
  | dropped => trivial

/-! ## 3. A place in a chain -/

/-- The directive that opens a chain, in double quotes, as it is written in a start tag. -/
def Written.asking (value : Text) : Written := .valued (Branch.when []).keyword '"' value

section Asking

variable {name value more : Text} {p : Nat} {e : Element}

/-- An element keeps the place in a chain that it has. -/
theorem Tag.foldlM_attach_branch {as : List Attribute} {e e' : Element} {b : Branch}
    (h : as.foldlM (Tag.attach p) e = .ok e') (hb : e.branch = some b) : e'.branch = some b := by
  induction as generalizing e with
  | nil => exact Except.ok.inj h ▸ hb
  | cons a as ih =>
    obtain ⟨e'', ha, has⟩ := Tag.foldlM_attach_cons.mp h
    refine ih has ?_
    unfold Tag.attach at ha
    split at ha
    · exact Except.ok.inj ha ▸ hb
    · split at ha
      · exact Except.ok.inj ha ▸ hb
      · next hnone => cases hb.symm.trans hnone
      · cases ha

/-- **A directive that comes first in a tag is the place of its element in a chain.** -/
theorem Tag.element_asking (hname : Tag.Heads name) (hvalue : Lexeme.Neutral value)
    {selfClosing : Bool}
    (h : Tag.element p selfClosing (name ++ ((Written.asking value).text ++ more)) = .ok e) :
    e.name = name ∧ e.branch = some (.when (Text.decode value)) := by
  have hnonblank : ∀ c ∈ name, (!Text.isTagBlank c) = true := fun c hc => by
    rw [hname.not_blank c hc, Bool.not_false]
  have hblank : ((Written.asking value).text ++ more).head?.all (fun c => !!Text.isTagBlank c) :=
    rfl
  obtain ⟨htake, hdrop⟩ := Text.takeWhile_append_eq hnonblank hblank
  have hfine : (Written.asking value).Fine :=
    ⟨Branch.fineName_keyword _, Or.inl rfl, fun hmem => hvalue _ hmem (by decide)⟩
  obtain ⟨-, hfold⟩ := Tag.element_eq_ok.mp h
  rw [hdrop, Written.asking, Tag.attributes_valued hfine] at hfold
  obtain ⟨e', hattach, hrest⟩ := Tag.foldlM_attach_cons.mp hfold
  have hplaces : Attribute.Places ⟨(Branch.when []).keyword, value⟩ (.when (Text.decode value)) :=
    ⟨rfl, fun _ h => Option.some.inj h ▸ rfl⟩
  rw [Tag.attach_branch p rfl hplaces] at hattach
  obtain rfl := Except.ok.inj hattach
  exact ⟨(Tag.element_name h).1.trans htake, Tag.foldlM_attach_branch hrest rfl⟩

/-- A tag that begins with a name and a directive is a start tag with both. -/
theorem Lexeme.Means.element_asking (hname : Tag.Heads name) (hvalue : Lexeme.Neutral value)
    {token : Token} (h : (tag (name ++ ((Written.asking value).text ++ more))).Means token) :
    ∃ e, (token = .opening e ∨ token = .empty e) ∧ e.name = name ∧
      e.branch = some (.when (Text.decode value)) := by
  rcases Token.ofTag_cases h with ⟨hslash, -⟩ | ⟨-, hend, e, he, rfl⟩ | ⟨-, -, e, he, rfl⟩
  · obtain ⟨c, rest, rfl, halpha⟩ := hname.exists_cons
    exact absurd (Option.some.inj hslash) (ne_of_isAlpha halpha (by decide))
  · -- the `/` at the end stands behind the directive
    have hquote : (Written.asking value).text.getLast? = some '"' := by
      rw [Written.asking, Written.text, List.getLast?_concat]
    rcases List.eq_nil_or_concat more with rfl | ⟨more, d, rfl⟩
    · rw [List.append_nil, List.getLast?_append, hquote] at hend
      exact absurd (Option.some.inj hend) (by decide)
    · rw [List.concat_eq_append, ← List.append_assoc, ← List.append_assoc,
        List.dropLast_concat, List.append_assoc] at he
      exact ⟨e, Or.inr rfl, Tag.element_asking hname hvalue he⟩
  · exact ⟨e, Or.inl rfl, Tag.element_asking hname hvalue he⟩

/-- **Whatever is cut off a source that begins with a name and a directive is a tag that begins with
both.** -/
theorem Lexeme.exists_of_cut_asking (hname : Tag.Heads name) (hvalue : Neutral value) {l : Lexeme}
    {rest : Text}
    (hcut : cut ('<' :: (name ++ ((Written.asking value).text ++ more))) = .ok (l, rest)) :
    ∃ more', l = .tag (name ++ ((Written.asking value).text ++ more')) := by
  obtain ⟨quote, hquote, hcrosses⟩ := hname.crosses
  have hkeyword : Neutral (Branch.when []).keyword := by decide
  have hfront := hcrosses.append (crosses_valued hquote hkeyword hvalue)
  obtain ⟨c, name', hcons, halpha⟩ := hname.exists_cons
  have hbegins : beginsMarkup
      ('<' :: c :: (name' ++ ((Written.asking value).text ++ more))) = true := by
    rw [beginsMarkup_lt, halpha]
    simp
  rw [hcons, List.cons_append, cut_tag hbegins (ne_of_isAlpha halpha (by decide))
    (ne_of_isAlpha halpha (by decide)), ← List.cons_append, ← hcons, ← List.append_assoc] at hcut
  obtain ⟨content, hbreak, rfl⟩ := cutTag_eq_ok.mp hcut
  obtain ⟨more', rfl⟩ := hfront.exists_append hbreak
  exact ⟨more', by rw [List.append_assoc, Written.asking]⟩

/-- The tree of the first tag comes first. -/
theorem Token.Derives.exists_cons {token : Token} {tokens : List Token} {ts : List Tree}
    (h : Derives (token :: tokens) ts) (htoken : token = .opening e ∨ token = .empty e) :
    ∃ children behind, ts = .node (.element e) children :: behind := by
  cases h with
  | @alone _ _ us ts halone _ =>
    obtain rfl : us = [.leaf (.element e)] := by
      rcases htoken with rfl | rfl
      · rw [alone?] at halone
        split at halone
        · exact (Option.some.inj halone).symm
        · cases halone
      · exact (Option.some.inj halone).symm
    exact ⟨[], ts, rfl⟩
  | element =>
    rcases htoken with htoken | htoken
    · obtain rfl := Token.opening.inj htoken
      exact ⟨_, _, rfl⟩
    · cases htoken

/-- **A source that begins with a start tag and an `@if` in it is read as an element with this place
in a chain**, if it can be read, and whatever stands behind it. -/
theorem Tree.first_of_parse (hname : Tag.Heads name) (hvalue : Lexeme.Neutral value)
    {ts : List Tree}
    (h : parse ('<' :: (name ++ ((Written.asking value).text ++ more))) = .ok ts) :
    ∃ e children behind, ts = node (.element e) children :: behind ∧ e.name = name ∧
      e.branch = some (.when (Text.decode value)) := by
  obtain ⟨ps, hreads, hderives⟩ := parse_eq_ok_iff.mp h
  have hfirst : ∃ q qs e, ps = q :: qs ∧ (q.token = .opening e ∨ q.token = .empty e) ∧
      e.name = name ∧ e.branch = some (.when (Text.decode value)) := by
    cases hreads with
    | piece _ hcut _ hmeans _ =>
      obtain ⟨more', rfl⟩ := Lexeme.exists_of_cut_asking hname hvalue hcut
      obtain ⟨e, htoken, he⟩ := hmeans.element_asking hname hvalue
      exact ⟨_, _, e, rfl, htoken, he⟩
    | raw _ hcut _ hmeans _ _ _ =>
      obtain ⟨more', rfl⟩ := Lexeme.exists_of_cut_asking hname hvalue hcut
      obtain ⟨e, htoken, he⟩ := hmeans.element_asking hname hvalue
      exact ⟨_, _, e, rfl, htoken, he⟩
  obtain ⟨q, qs, e, rfl, htoken, he⟩ := hfirst
  obtain ⟨children, behind, rfl⟩ := hderives.exists_cons htoken
  exact ⟨e, children, behind, rfl, he⟩

end Asking

end Stencil
