/-
# Canonical markup

A tree is canonical if it can be told from its markup: names are of the usual characters, no value
of an attribute holds both quotes, texts hold nothing that would open a tag and do not stand next to
each other, the content of a raw element does not hold its end tag, and nothing stands under an
element that is printed without an end tag.

The directives of an element may be any texts.  What the printer makes of a canonical element is
legible tags (`legible_startTag` and its companions), and so canonical trees are legible
(`legibleAll_of_canonical`): the document that is written in the markup of a canonical document is
the document itself, up to the numbers of its nodes.
-/
import Stencil.Proofs.Document.Edits
import Stencil.Proofs.Markup.AttributeMap
import Stencil.Proofs.Markup.Attributes
import Stencil.Proofs.Markup.Legible

namespace Stencil

/-! ## 1. The element of a printed tag -/

/-- The directive as it is printed. -/
def Branch.written (b : Branch) : Written :=
  match b.condition? with
  | some condition => .valued b.keyword '"' (Text.quoted condition)
  | none => .bare b.keyword

/-- The attribute as it is printed. -/
def Attribute.written (a : Attribute) : Written :=
  if a.value = [] then .bare a.name else .valued a.name (quoteFor a.value) a.value

/-- All that is printed behind the name of an element. -/
def Element.written (e : Element) : List Written :=
  (e.declares.map fun name => .valued declarationKeyword '"' (Text.quoted name)).toList ++
    (e.branch.map Branch.written).toList ++ e.attributes.map Attribute.written

theorem Branch.text_written (b : Branch) : b.written.text = b.print := by
  unfold written print
  cases b.condition? with
  | none => rfl
  | some condition => rfl

theorem Attribute.text_written (a : Attribute) : a.written.text = a.print := by
  unfold written print
  split <;> rfl

theorem Attribute.meaning_written (a : Attribute) : a.written.meaning = a := by
  unfold written
  split
  · next h =>
    obtain ⟨name, value⟩ := a
    obtain rfl : value = [] := h
    rfl
  · rfl

/-- The content of a start tag is the name and what is written behind it. -/
theorem Element.content_eq (e : Element) :
    e.content = e.name ++ e.written.flatMap Written.text := by
  have hattributes : (e.attributes.map Attribute.written).flatMap Written.text =
      e.attributes.flatMap Attribute.print := by
    rw [List.flatMap_map]
    exact congrArg (e.attributes.flatMap ·) (funext Attribute.text_written)
  have hbranch : (e.branch.map Branch.written).toList.flatMap Written.text =
      (e.branch.map Branch.print).getD [] := by
    cases e.branch with
    | none => rfl
    | some b => simp [Branch.text_written]
  rw [content, written, List.flatMap_append, List.flatMap_append, hattributes, hbranch]
  cases e.declares <;> simp [Written.text, printDirective]

/-- The names of directives. -/
def directiveNames : List Text :=
  [declarationKeyword, ['@', 'i', 'f'], ['@', 'e', 'l', 's', 'e', '-', 'i', 'f'],
    ['@', 'e', 'l', 's', 'e']]

/-- The attribute has a usual name and a value that can stand in quotes. -/
structure Attribute.Canonical (a : Attribute) : Prop where
  name_ne_nil : a.name ≠ []
  name_chars : ∀ c ∈ a.name, Tag.isAttributeChar c = true
  not_directive : a.name ∉ directiveNames
  not_both_quotes : ¬ ('"' ∈ a.value ∧ '\'' ∈ a.value)

/-- The element has a usual name, and its attributes are canonical and have different names.
Nothing is asked of its directives. -/
structure Element.Canonical (e : Element) : Prop where
  name_alpha : e.name.head?.any Char.isAlpha = true
  name_chars : ∀ c ∈ e.name, Tag.isNameChar c = true
  attributes : ∀ a ∈ e.attributes, a.Canonical
  nodup_names : (e.attributes.map Attribute.name).Nodup

/-- The attribute declares the name. -/
def Attribute.Declares (a : Attribute) (name : Text) : Prop :=
  a.name = declarationKeyword ∧ a.decoded = name

/-- The attribute gives an element this place in a chain. -/
def Attribute.Places (a : Attribute) (b : Branch) : Prop :=
  a.name = b.keyword ∧ ∀ condition, b.condition? = some condition → a.decoded = condition

/-- The declaration that is printed declares its name. -/
theorem Attribute.declares_quoted (name : Text) :
    Attribute.Declares ⟨declarationKeyword, Text.quoted name⟩ name :=
  ⟨rfl, Text.decode_quoted name⟩

/-- The directive that is printed of a branch is that branch. -/
theorem Branch.places_written (b : Branch) : b.written.meaning.Places b := by
  cases b with
  | otherwise => exact ⟨rfl, nofun⟩
  | when condition => exact ⟨rfl, fun _ h => Option.some.inj h ▸ Text.decode_quoted condition⟩
  | orWhen condition => exact ⟨rfl, fun _ h => Option.some.inj h ▸ Text.decode_quoted condition⟩

/-- What is printed of an element means its declaration, its place in a chain and its attributes. -/
theorem Element.map_meaning_written (e : Element) : e.written.map Written.meaning =
    (e.declares.map fun name => ⟨declarationKeyword, Text.quoted name⟩).toList ++
      (e.branch.map fun b => b.written.meaning).toList ++ e.attributes := by
  have hattributes : (e.attributes.map Attribute.written).map Written.meaning = e.attributes := by
    simp [Function.comp_def, Attribute.meaning_written]
  rw [written, List.map_append, List.map_append, hattributes]
  cases e.declares <;> cases e.branch <;> rfl

namespace Tag

variable {p : Nat} {e : Element}

theorem attach_declaration (p : Nat) (e : Element) {a : Attribute} {name : Text}
    (h : a.Declares name) : attach p e a = .ok { e with declares := some name } := by
  rw [attach, if_pos h.1, h.2]

theorem attach_branch (p : Nat) {e : Element} (he : e.branch = none) {a : Attribute} {b : Branch}
    (h : a.Places b) : attach p e a = .ok { e with branch := some b } := by
  obtain ⟨hkeyword, hcondition⟩ := h
  have hbranch : Branch.ofAttribute? a = some b := by
    cases b with
    | otherwise => simp [Branch.ofAttribute?, hkeyword, Branch.keyword]
    | when condition =>
      simp [Branch.ofAttribute?, hkeyword, Branch.keyword, hcondition condition rfl]
    | orWhen condition =>
      simp [Branch.ofAttribute?, hkeyword, Branch.keyword, hcondition condition rfl]
  have hne : a.name ≠ declarationKeyword := by
    rw [hkeyword]
    cases b <;> simp [Branch.keyword, declarationKeyword]
  rw [attach, if_neg hne, hbranch, he]

theorem put_of_fresh {name value : Text} {as : List Attribute} (h : ∀ a ∈ as, a.name ≠ name) :
    Attribute.put name value as = as ++ [⟨name, value⟩] := by
  rcases Attribute.put_cases name value as with ⟨front, old, behind, rfl, -⟩ | ⟨-, hput⟩
  · have hold : (⟨name, old⟩ : Attribute) ∈ front ++ ⟨name, old⟩ :: behind := by simp
    exact absurd rfl (h _ hold)
  · exact hput

/-- An attribute with a new name goes to the end. -/
theorem attach_attribute (p : Nat) {e : Element} {a : Attribute} (hname : a.name ∉ directiveNames)
    (hfresh : ∀ b ∈ e.attributes, b.name ≠ a.name) :
    attach p e a = .ok { e with attributes := e.attributes ++ [a] } := by
  have hnot : ∀ keyword ∈ directiveNames, a.name ≠ keyword :=
    fun keyword hmem heq => hname (heq ▸ hmem)
  have hbranch : Branch.ofAttribute? a = none := by
    rw [Branch.ofAttribute?, if_neg (hnot _ (by decide)), if_neg (hnot _ (by decide)),
      if_neg (hnot _ (by decide))]
  rw [attach, if_neg (hnot _ (by decide)), hbranch]
  dsimp only
  rw [Element.withAttribute, put_of_fresh hfresh]

theorem foldlM_attach (p : Nat) {e : Element} {as : List Attribute}
    (hnames : ∀ a ∈ as, a.name ∉ directiveNames)
    (hnodup : ((e.attributes ++ as).map Attribute.name).Nodup) :
    as.foldlM (attach p) e = .ok { e with attributes := e.attributes ++ as } := by
  induction as generalizing e with
  | nil =>
    rw [List.append_nil]
    rfl
  | cons a as ih =>
    obtain ⟨ha, has⟩ := List.forall_mem_cons.mp hnames
    have hfresh : ∀ b ∈ e.attributes, b.name ≠ a.name := by
      intro b hb
      rw [List.map_append, List.nodup_append] at hnodup
      exact hnodup.2.2 b.name (List.mem_map_of_mem hb) a.name List.mem_cons_self
    rw [List.foldlM_cons, attach_attribute p ha hfresh]
    have hrest := ih (e := { e with attributes := e.attributes ++ [a] }) has (by simpa using hnodup)
    simpa [bind, Except.bind] using hrest

/-- **Attributes are put together to the element that they mean**: one that declares its name, one
that gives it its place in a chain, and its own. -/
theorem foldlM_parts (p : Nat) {declaration branch : Option Attribute}
    (hdeclares : Option.Rel Attribute.Declares declaration e.declares)
    (hbranch : Option.Rel Attribute.Places branch e.branch)
    (hnames : ∀ a ∈ e.attributes, a.name ∉ directiveNames)
    (hnodup : (e.attributes.map Attribute.name).Nodup) :
    (declaration.toList ++ branch.toList ++ e.attributes).foldlM (attach p)
      { name := e.name, selfClosing := e.selfClosing } = .ok e := by
  let bare : Element := { name := e.name, selfClosing := e.selfClosing }
  have hfirst : declaration.toList.foldlM (attach p) bare =
      .ok { bare with declares := e.declares } := by
    generalize e.declares = name at hdeclares
    cases hdeclares with
    | none => rfl
    | some h =>
      change (attach p bare _ >>= pure) = _
      rw [attach_declaration p bare h]
      rfl
  have hsecond : branch.toList.foldlM (attach p) { bare with declares := e.declares } =
      .ok { bare with declares := e.declares, branch := e.branch } := by
    generalize e.branch = b at hbranch
    cases hbranch with
    | none => rfl
    | some h =>
      change (attach p { bare with declares := e.declares } _ >>= pure) = _
      rw [attach_branch p rfl h]
      rfl
  have hthird : e.attributes.foldlM (attach p)
      { bare with declares := e.declares, branch := e.branch } = .ok e :=
    foldlM_attach p hnames hnodup
  rw [List.foldlM_append, List.foldlM_append, hfirst]
  change (branch.toList.foldlM (attach p) { bare with declares := e.declares } >>= _) = _
  rw [hsecond]
  exact hthird

end Tag

/-! ## 2. The tags of canonical elements -/

theorem ne_of_isAlpha {c d : Char} (hc : c.isAlpha = true) (hd : d.isAlpha = false) : c ≠ d := by
  rintro rfl
  exact absurd (hc.symm.trans hd) nofun

/-- The name is made of the usual characters and begins with a letter. -/
structure Tag.UsualName (name : Text) : Prop where
  alpha : name.head?.any Char.isAlpha = true
  chars : ∀ c ∈ name, Tag.isNameChar c = true

namespace Tag.UsualName

variable {name : Text} (h : UsualName name)

include h

theorem exists_cons : ∃ c more, name = c :: more ∧ c.isAlpha = true := by
  have halpha := h.alpha
  cases name with
  | nil => exact absurd halpha nofun
  | cons c more => exact ⟨c, more, rfl, halpha⟩

theorem attributeChars : ∀ c ∈ name, isAttributeChar c = true :=
  fun c hc => isAttributeChar_of_isNameChar (h.chars c hc)

theorem not_blank : ∀ c ∈ name, Text.isTagBlank c = false :=
  fun c hc => (not_blank_of_continuesName (continuesName_of_isAttributeChar
    (h.attributeChars c hc))).1

theorem lt_not_mem : '<' ∉ name := fun hmem => absurd (h.chars _ hmem) (by decide)

theorem passes : Lexeme.Passes name := Lexeme.passes_name h.attributeChars

theorem getLast?_ne : name.getLast? ≠ some '/' := getLast?_name h.attributeChars

theorem head?_ne {d : Char} (hd : d.isAlpha = false) (more : Text) :
    (name ++ more).head? ≠ some d := by
  obtain ⟨c, more', rfl, halpha⟩ := h.exists_cons
  exact fun heq => ne_of_isAlpha halpha hd (Option.some.inj heq)

/-- A tag that begins with the name, and whose content can be passed, is cut off whole. -/
theorem cut_tag {more : Text} (hpasses : Lexeme.Passes (name ++ more)) :
    Lexeme.cut (Lexeme.tag (name ++ more)).written = .ok (.tag (name ++ more), []) := by
  refine Lexeme.cut_written_tag ?_ (h.head?_ne (by decide) more) (h.head?_ne (by decide) more)
    hpasses
  obtain ⟨c, more', rfl, halpha⟩ := h.exists_cons
  change Lexeme.beginsMarkup ('<' :: c :: _) = true
  rw [Lexeme.beginsMarkup_lt, halpha]
  simp

/-- **An end tag with the name is legible.** -/
theorem legible_endTag {e : Element} (he : e.name = name) :
    e.endTag.Legible (.closing name) := by
  subst he
  constructor
  · refine Lexeme.cut_written_tag ?_ (by simp) (by simp) ?_
    · obtain ⟨c, more, hname, halpha⟩ := h.exists_cons
      rw [hname]
      change Lexeme.beginsMarkup ('<' :: '/' :: c :: _) = true
      rw [Lexeme.beginsMarkup_lt, List.head?_cons, Option.any_some, halpha]
      simp
    · exact Lexeme.passes_slash.append h.passes
  · change Token.ofTag 0 ('/' :: e.name) = _
    rw [Token.ofTag, if_pos List.head?_cons, List.drop_one, List.tail_cons,
      Text.dropEndWhile_eq_self h.not_blank]

end Tag.UsualName

/-- The name of a raw element is a usual name. -/
theorem Tag.usualName_of_isRawName {name : Text} (h : isRawName name = true) : UsualName name := by
  obtain ⟨-, hletters⟩ := Lexeme.isAlpha_of_isRawName h (beq_self_eq_true _)
  refine ⟨Lexeme.head?_isAlpha_of_isRawName h (beq_self_eq_true _), fun c hc => ?_⟩
  rw [isNameChar, Char.isAlphanum, hletters c hc]
  rfl

/-- The element is what its name and these attributes, well written, mean. -/
structure Element.Spelled (e : Element) (ws : List Written) : Prop where
  usualName : Tag.UsualName e.name
  fine : ∀ w ∈ ws, w.Fine
  means : ∀ p, (ws.map Written.meaning).foldlM (Tag.attach p)
    { name := e.name, selfClosing := e.selfClosing } = .ok e

namespace Element.Spelled

variable {e : Element} {ws : List Written} (h : e.Spelled ws)

include h

/-- **The content of a start tag is read as the element that it spells.** -/
theorem element_content (p : Nat) :
    Tag.element p e.selfClosing (e.name ++ ws.flatMap Written.text) = .ok e := by
  have hnonblank : ∀ c ∈ e.name, (!Text.isTagBlank c) = true := fun c hc => by
    rw [h.usualName.not_blank c hc, Bool.not_false]
  have hblank : (ws.flatMap Written.text).head?.all fun c => !!Text.isTagBlank c := by
    cases ws with
    | nil => rfl
    | cons w ws => cases w <;> rfl
  obtain ⟨htake, hdrop⟩ := Text.takeWhile_append_eq hnonblank hblank
  rw [Tag.element_eq_ok, Tag.name, htake, hdrop, Tag.attributes_flatMap h.fine]
  exact ⟨rfl, h.means p⟩

theorem passes_content : Lexeme.Passes (e.name ++ ws.flatMap Written.text) :=
  h.usualName.passes.append (Lexeme.passes_flatMap h.fine)

theorem getLast?_content : (e.name ++ ws.flatMap Written.text).getLast? ≠ some '/' :=
  Text.getLast?_append_ne h.usualName.getLast?_ne (Written.getLast?_flatMap h.fine)

/-- **A start tag is legible as the element that it spells.** -/
theorem legible_startTag (hclosing : e.selfClosing = false) :
    (Lexeme.tag (e.name ++ ws.flatMap Written.text)).Legible (.opening e) := by
  constructor
  · exact h.usualName.cut_tag h.passes_content
  · have helement := h.element_content 0
    rw [hclosing] at helement
    change Token.ofTag 0 (e.name ++ ws.flatMap Written.text) = _
    rw [Token.ofTag, if_neg (h.usualName.head?_ne (by decide) _), if_neg h.getLast?_content,
      helement]
    rfl

/-- **A tag that closes itself is legible as the element that it spells.** -/
theorem legible_emptyTag (hclosing : e.selfClosing = true) :
    (Lexeme.tag (e.name ++ (ws.flatMap Written.text ++ ['/']))).Legible (.empty e) := by
  constructor
  · have hpasses := h.passes_content.append Lexeme.passes_slash
    rw [List.append_assoc] at hpasses
    exact h.usualName.cut_tag hpasses
  · have helement := h.element_content 0
    rw [hclosing] at helement
    change Token.ofTag 0 (e.name ++ (ws.flatMap Written.text ++ ['/'])) = _
    rw [Token.ofTag, if_neg (h.usualName.head?_ne (by decide) _), ← List.append_assoc,
      if_pos List.getLast?_concat, List.dropLast_concat, helement]
    rfl

end Element.Spelled

theorem Branch.fineName_keyword (b : Branch) : Written.FineName b.keyword := by
  cases b <;> exact ⟨nofun, List.all_eq_true.mp (by simp only [keyword]; decide)⟩

theorem Branch.fine_written (b : Branch) : b.written.Fine := by
  unfold written
  split
  · next condition _ =>
    exact ⟨b.fineName_keyword, Or.inl rfl,
      Text.not_mem_quoted (by decide) condition⟩
  · exact b.fineName_keyword

namespace Attribute

/-- A value that does not hold both quotes does not hold the one that it is printed in. -/
theorem quoteFor_not_mem {value : Text} (h : ¬ ('"' ∈ value ∧ '\'' ∈ value)) :
    (quoteFor value = '"' ∨ quoteFor value = '\'') ∧ quoteFor value ∉ value := by
  unfold quoteFor
  by_cases hdouble : '"' ∈ value
  · have hsingle : '\'' ∉ value := fun hmem => h ⟨hdouble, hmem⟩
    simp [hdouble, hsingle]
  · simp [hdouble]

theorem Canonical.fine_written {a : Attribute} (h : a.Canonical) : a.written.Fine := by
  unfold written
  split
  · exact ⟨h.name_ne_nil, h.name_chars⟩
  · obtain ⟨hquote, hvalue⟩ := quoteFor_not_mem h.not_both_quotes
    exact ⟨⟨h.name_ne_nil, h.name_chars⟩, hquote, hvalue⟩

end Attribute

namespace Element

variable {e : Element}

theorem Canonical.fine_written (h : e.Canonical) : ∀ w ∈ e.written, w.Fine := by
  intro w hw
  rcases List.mem_append.mp hw with hw | hw
  · rcases List.mem_append.mp hw with hw | hw
    · cases hdeclares : e.declares with
      | none => simp [hdeclares] at hw
      | some name =>
        obtain rfl : w = .valued declarationKeyword '"' (Text.quoted name) := by
          simpa [hdeclares] using hw
        exact ⟨⟨nofun, List.all_eq_true.mp (by decide)⟩, Or.inl rfl,
          Text.not_mem_quoted (by decide) name⟩
    · cases hbranch : e.branch with
      | none => simp [hbranch] at hw
      | some b =>
        obtain rfl : w = b.written := by simpa [hbranch] using hw
        exact b.fine_written
  · obtain ⟨a, ha, rfl⟩ := List.mem_map.mp hw
    exact (h.attributes a ha).fine_written

theorem Canonical.usualName (h : e.Canonical) : Tag.UsualName e.name := ⟨h.name_alpha, h.name_chars⟩

/-- **A canonical element is what is printed of it.** -/
theorem Canonical.spelled (h : e.Canonical) : e.Spelled e.written := by
  refine ⟨h.usualName, h.fine_written, fun p => ?_⟩
  rw [e.map_meaning_written]
  refine Tag.foldlM_parts p ?_ ?_ (fun a ha => (h.attributes a ha).not_directive) h.nodup_names
  · cases e.declares with
    | none => exact .none
    | some name => exact .some (Attribute.declares_quoted name)
  · cases e.branch with
    | none => exact .none
    | some b => exact .some b.places_written

/-- **The start tag of a canonical element is legible.** -/
theorem Canonical.legible_startTag (h : e.Canonical) (hclosing : e.selfClosing = false) :
    e.startTag.Legible (.opening e) := by
  rw [startTag, content_eq]
  exact h.spelled.legible_startTag hclosing

/-- **The one tag of a canonical element that closes itself is legible.** -/
theorem Canonical.legible_emptyTag (h : e.Canonical) (hclosing : e.selfClosing = true) :
    e.emptyTag.Legible (.empty e) := by
  rw [emptyTag, content_eq, List.append_assoc]
  exact h.spelled.legible_emptyTag hclosing

end Element

/-! ## 3. Canonical trees -/

/-- The text of a raw element does not hold its end tag: no `</` with the name, in any case, and a
character behind it that ends the name. -/
def Lexeme.HoldsNoEnd (name body : Text) : Prop :=
  ∀ (before n after : Text) (c : Char), body = before ++ '<' :: '/' :: (n ++ c :: after) →
    Text.sameFold n name = true → endsRawName c = false

/-- Each `>` of the text closes a `<` before it, and no `<` stays open. -/
structure Text.Balanced (t : Text) : Prop where
  closes_open : ∀ a, a <+: t → a.count '>' ≤ a.count '<'
  count_eq : t.count '>' = t.count '<'

/-- The text of a doctype can be told from its markup. -/
structure Text.CanonicalDoctype (t : Text) : Prop where
  ne_nil : t ≠ []
  trimmed : trim t = t
  balanced : t.Balanced

namespace Tree

def IsText : Tree → Prop
  | node (.text _) _ => True
  | _ => False

/-- What stands under a raw element: nothing, or one text that does not hold its end tag. -/
def CanonicalContent (name : Text) (children : List Tree) : Prop :=
  children = [] ∨
    ∃ body, children = [leaf (.text body)] ∧ body ≠ [] ∧ Lexeme.HoldsNoEnd name body

mutual

/-- The tree can be told from its markup. -/
def Canonical : Tree → Prop
  | node (.element e) children =>
    e.Canonical ∧ (e.isVoid = true ∨ e.selfClosing = true → children = []) ∧
      if isRawName e.name then CanonicalContent e.name children else CanonicalAll children
  | node .fragment _ => False
  | node (.text t) children => t ≠ [] ∧ Lexeme.Plain t ∧ children = []
  | node (.doctype t) children => t.CanonicalDoctype ∧ children = []

/-- The trees on a list can be told from their markup: no two texts stand next to each other. -/
def CanonicalAll : List Tree → Prop
  | [] => True
  | t :: rest => t.Canonical ∧ (t.IsText → ∀ s ∈ rest.head?, ¬ s.IsText) ∧ CanonicalAll rest

end

mutual

theorem shaped_of_canonical : ∀ {t : Tree}, t.Canonical → t.Each Shaped
  | node (.element e) children, ⟨_, hpaired, hchildren⟩ => by
    refine ⟨⟨nofun, fun hne => ?_⟩, ?_⟩
    · obtain ⟨hvoid, hclosing⟩ := not_or.mp (mt hpaired hne)
      exact ⟨e, rfl, Bool.eq_false_iff.mpr hvoid, Bool.eq_false_iff.mpr hclosing⟩
    · split at hchildren
      · rcases hchildren with rfl | ⟨body, rfl, -⟩
        · trivial
        · exact ⟨each_leaf (shaped_leaf nofun), trivial⟩
      · exact shapedAll_of_canonical hchildren
  | node .fragment _, h => h.elim
  | node (.text t) children, ⟨_, _, hchildren⟩ => hchildren ▸ each_leaf (shaped_leaf nofun)
  | node (.doctype t) children, ⟨_, hchildren⟩ => hchildren ▸ each_leaf (shaped_leaf nofun)

theorem shapedAll_of_canonical : ∀ {ts : List Tree}, CanonicalAll ts → EachAll Shaped ts
  | [], _ => trivial
  | _ :: _, ⟨ht, _, hts⟩ => ⟨shaped_of_canonical ht, shapedAll_of_canonical hts⟩

end

end Tree

/-! ## 4. Canonical trees are legible -/

namespace Text

/-- A balanced text is passed in the search for the end of a doctype. -/
theorem breakBalanced_balanced {depth : Nat} {t : Text}
    (hopen : ∀ a, a <+: t → a.count '>' ≤ depth + a.count '<')
    (hcount : t.count '>' = depth + t.count '<') (r : Text) :
    Lexeme.breakBalanced depth (t ++ '>' :: r) = some (t, r) := by
  induction t generalizing depth with
  | nil =>
    obtain rfl : depth = 0 := by simpa using hcount.symm
    simp [Lexeme.breakBalanced]
  | cons c t ih =>
    have htail : ∀ a, a <+: t → (c :: a).count '>' ≤ depth + (c :: a).count '<' := fun a ha =>
      hopen (c :: a) (List.cons_prefix_cons.mpr ⟨rfl, ha⟩)
    rw [List.cons_append, Lexeme.breakBalanced]
    by_cases hclose : c = '>'
    · subst hclose
      have hpos := htail [] List.nil_prefix
      simp only [List.count_cons, Char.reduceBEq, if_true, if_false, List.count_nil,
        Bool.false_eq_true] at hpos htail hcount
      rw [if_neg (by simp; omega), if_pos rfl]
      dsimp only
      rw [ih (fun a ha => by have := htail a ha; omega) (by omega)]
      rfl
    · by_cases hlt : c = '<'
      · subst hlt
        simp only [List.count_cons, Char.reduceBEq, if_true, if_false,
          Bool.false_eq_true] at htail hcount
        rw [if_neg (by simp), if_neg hclose, if_pos rfl]
        dsimp only
        rw [ih (fun a ha => by have := htail a ha; omega) (by omega)]
        rfl
      · simp only [List.count_cons, beq_iff_eq, hclose, hlt, if_false, Nat.add_zero]
          at htail hcount
        rw [if_neg (by simp [hclose]), if_neg hclose, if_neg hlt]
        dsimp only
        rw [ih htail hcount]
        rfl

/-- A trimmed text does not begin with a blank. -/
theorem dropWhile_of_trim {t : Text} (h : trim t = t) : t.dropWhile isTagBlank = t := by
  have hall : t.dropWhile isBlank = t := by
    refine (List.dropWhile_suffix isBlank).eq_of_length_le ?_
    have hend := (List.dropWhile_sublist isBlank (l := (t.dropWhile isBlank).reverse)).length_le
    have hlength := congrArg List.length h
    rw [trim, dropEndWhile, List.length_reverse] at hlength
    rw [List.length_reverse] at hend
    omega
  cases t with
  | nil => rfl
  | cons c t =>
    rw [List.dropWhile_cons_of_neg]
    intro hblank
    rw [List.dropWhile_cons_of_pos (isAsciiBlank_isBlank (isTagBlank_isAsciiBlank hblank))] at hall
    have hlength := (List.dropWhile_suffix isBlank (l := t)).length_le
    rw [hall, List.length_cons] at hlength
    omega

end Text

/-- **A canonical doctype is legible.** -/
theorem Lexeme.legible_ofDoctype {t : Text} (h : t.CanonicalDoctype) :
    (ofDoctype t).Legible (.doctype t) := by
  have hblank : t.dropWhile Text.isTagBlank = t := Text.dropWhile_of_trim h.trimmed
  constructor
  · have hbody : breakBalanced 0 (t ++ ['>']) = some (t, []) :=
      Text.breakBalanced_balanced (by simpa using h.balanced.closes_open)
        (by simpa using h.balanced.count_eq) []
    have hbreak : breakBalanced 0 (doctypeKeyword ++ ' ' :: (t ++ ['>'])) =
        some (doctypeKeyword ++ ' ' :: t, []) := by
      simp [doctypeKeyword, breakBalanced, hbody]
    have hwritten : (ofDoctype t).written =
        '<' :: '!' :: (doctypeKeyword ++ ' ' :: (t ++ ['>'])) := by
      simp [ofDoctype, written]
    rw [hwritten, cut_declaration]
    exact cutDeclaration_eq_ok.mpr (.doctype rfl hbreak rfl)
  · change Token.ofDoctype 0 (doctypeKeyword ++ ' ' :: t) = _
    unfold Token.ofDoctype
    rw [List.drop_left, List.dropWhile_cons_of_pos (by decide), hblank]
    dsimp only
    rw [if_neg h.ne_nil, h.trimmed]

/-- A character that is no letter stands in both of two texts that are the same in any case. -/
theorem Text.mem_of_sameFold {c : Char} (hc : c.val < 'a'.val) (hlower : c.toLower = c)
    {s t : Text} (h : sameFold s t = true) (hmem : c ∈ s) : c ∈ t := by
  have hfold : c ∈ fold t := by
    rw [← beq_iff_eq.mp h]
    exact List.mem_map.mpr ⟨c, hmem, hlower⟩
  obtain ⟨d, hd, heq⟩ := List.mem_map.mp hfold
  by_contra hnot
  have hne : d ≠ c := fun h => hnot (h ▸ hd)
  exact toLower_ne hc hne heq

theorem Text.sameFold_comm (s t : Text) : sameFold s t = sameFold t s := BEq.comm

theorem Text.lt_not_mem_of_sameFold {n name : Text} (h : sameFold n name = true)
    (hname : '<' ∉ name) : '<' ∉ n :=
  mt (mem_of_sameFold (by decide) (by decide) h) hname

namespace Lexeme

/-- No suffix of the content of a raw element closes it, together with its end tag. -/
theorem closesRaw_holdsNoEnd {name body s r : Text} (hname : '<' ∉ name)
    (hbody : HoldsNoEnd name body) (hs : s ≠ []) (hsuffix : s <:+ body) :
    closesRaw name (s ++ '<' :: r) = false := by
  refine Bool.eq_false_iff.mpr fun hcloses => ?_
  obtain ⟨u, heq, hsame, hends⟩ := exists_of_closesRaw hcloses
  match s, hs, hsuffix with
  | [c], _, _ => exact absurd (List.cons.inj (List.cons.inj heq).2).1 (by decide)
  | c :: d :: v, _, ⟨before, hbefore⟩ =>
    obtain ⟨rfl, heq'⟩ := List.cons.inj heq
    obtain ⟨rfl, rfl⟩ := List.cons.inj heq'
    rcases Nat.lt_or_ge name.length v.length with hlt | hge
    · -- the name and the character behind it stand in the content
      rw [List.append_eq, List.take_append_of_le_length (Nat.le_of_lt hlt)] at hsame
      rw [List.append_eq, List.drop_append_of_le_length (Nat.le_of_lt hlt),
        List.drop_eq_getElem_cons hlt, List.cons_append, List.head?_cons, Option.all_some] at hends
      have hc := hbody before (v.take name.length) (v.drop (name.length + 1)) v[name.length]
        (by rw [← hbefore, ← List.drop_eq_getElem_cons hlt, List.take_append_drop]) hsame
      exact absurd (hends.symm.trans hc) nofun
    · -- the `<` behind the content would stand in the name, or end it
      rcases Nat.eq_or_lt_of_le hge with heq | hlt
      · rw [List.append_eq, List.drop_append_of_le_length (Nat.le_of_eq heq.symm),
          List.drop_eq_nil_of_le hge, List.nil_append, List.head?_cons, Option.all_some] at hends
        exact absurd hends (by decide)
      · refine Text.lt_not_mem_of_sameFold hsame hname ?_
        rw [List.append_eq, List.take_append]
        obtain ⟨k, hk⟩ := Nat.exists_eq_add_of_lt hlt
        rw [hk, Nat.add_assoc, Nat.add_sub_cancel_left, List.take_succ_cons]
        simp

theorem holdsNoEnd_of_not_mem {body : Text} (h : '/' ∉ body) (name : Text) :
    HoldsNoEnd name body := by
  rintro before n after c rfl -
  exact absurd (by simp) h

/-- Whether the content holds the end tag can be looked up: it does not if nothing that is longer
than `</` and the name closes the element. -/
theorem holdsNoEnd_of_drop {name body : Text}
    (h : ∀ k < body.length - (name.length + 2), closesRaw name (body.drop k) = false) :
    HoldsNoEnd name body := by
  rintro before n after c rfl hname
  have hlength : n.length = name.length := by
    have hfold := congrArg List.length (beq_iff_eq.mp hname)
    simpa [Text.fold] using hfold
  have hcloses := h before.length (by simp; omega)
  rw [List.drop_left, closesRaw, ← hlength, List.take_left, List.drop_left, hname] at hcloses
  exact hcloses

/-- The content of a raw element that does not hold its end tag goes up to the end tag. -/
theorem breakBefore_holdsNoEnd {e : Element} {body : Text} (hname : '<' ∉ e.name)
    (hbody : HoldsNoEnd e.name body) :
    Text.breakBefore (closesRaw e.name) (body ++ e.endTag.written) = (body, e.endTag.written) := by
  refine Text.breakBefore_append_eq (fun s hs hsuffix => ?_) (Or.inr ?_)
  · exact closesRaw_holdsNoEnd hname hbody hs hsuffix
  · have hcloses := closesRaw_written e.name []
    rwa [List.append_nil] at hcloses

end Lexeme

namespace Tree

theorem isText_of_isRun {t : Tree} (h : t.IsRun) : t.IsText := by
  obtain ⟨kind, children⟩ := t
  cases kind with
  | text t => trivial
  | _ => exact h.elim

mutual

theorem legible_of_canonical : ∀ {t : Tree}, t.Canonical → t.Legible
  | node (.element e) children, ⟨he, hpaired, hchildren⟩ => by
    rw [Legible]
    cases hclosing : e.selfClosing with
    | true =>
      obtain rfl := hpaired (Or.inr hclosing)
      have hform : e.tagForm ([] : List Tree).isEmpty = .empty := by
        simp [Element.tagForm, hclosing]
      rw [hform]
      exact he.legible_emptyTag hclosing
    | false =>
      have hstart := he.legible_startTag hclosing
      cases hform : e.tagForm children.isEmpty with
      | empty =>
        exact absurd ((Element.tagForm_empty hform).2.symm.trans hclosing) nofun
      | bare => exact hstart
      | paired =>
        refine ⟨hstart, he.usualName.legible_endTag rfl, ?_⟩
        split at hchildren
        · next hraw =>
          rw [if_pos hraw]
          refine hchildren.imp_right fun ⟨body, hbody, hne, hend⟩ => ⟨body, hbody, hne, ?_⟩
          exact Lexeme.breakBefore_holdsNoEnd he.usualName.lt_not_mem hend
        · next hraw =>
          rw [if_neg hraw]
          exact legibleAll_of_canonical hchildren
  | node .fragment _, h => h.elim
  | node (.text t) _, ⟨hne, hplain, _⟩ => by
    refine ⟨hne, .text t, rfl, ?_, rfl⟩
    have hcut := Lexeme.cut_plain hplain (Or.inl rfl) hne
    rwa [List.append_nil] at hcut
  | node (.doctype t) _, ⟨ht, _⟩ => Lexeme.legible_ofDoctype ht

/-- **Canonical trees are legible.** -/
theorem legibleAll_of_canonical : ∀ {ts : List Tree}, CanonicalAll ts → LegibleAll ts
  | [], _ => trivial
  | _ :: _, ⟨ht, hapart, hrest⟩ =>
    ⟨legible_of_canonical ht,
      fun hrun s hs hrun' => hapart (isText_of_isRun hrun) s hs (isText_of_isRun hrun'),
      legibleAll_of_canonical hrest⟩

end

end Tree

/-! ## 5. Canonical documents are read back -/

namespace Document

/-- The document can be told from its markup. -/
def Canonical (d : Document) : Prop :=
  ∃ ts, d.tree root = .node .fragment ts ∧ Tree.CanonicalAll ts

/-- **What is printed of a canonical document is read as the same tree.** -/
theorem parse_print_of_canonical {d : Document} (h : d.Canonical) :
    ∃ d', parse (d.print .verbatim) = .ok d' ∧ d'.tree root = d.tree root := by
  obtain ⟨ts, htree, hts⟩ := h
  have hprint : d.print .verbatim = Tree.printAll .verbatim ts := by
    rw [print, htree, Tree.print]
  have hparse := Tree.parse_legible (Tree.shapedAll_of_canonical hts)
    (Tree.legibleAll_of_canonical hts)
  refine ⟨ofTrees ts, ?_, ?_⟩
  · rw [hprint, parse, hparse]
    rfl
  · rw [tree_root_ofTrees, htree]

/-- A doctype, a declaration with a quote in its name around a text that is only a `<`, and a raw
element with an end tag of another name in it. -/
def canonicalSample : Document :=
  ofTrees
    [.leaf (.doctype "html".toList),
      .node (.element ⟨['p'], some ['"'], none, [⟨['a'], ['\'']⟩], false⟩)
        [.leaf (.text ['<']), .leaf (.element ⟨['b', 'r'], none, none, [], false⟩)],
      .node (.element ⟨"style".toList, none, none, [⟨['b'], []⟩], false⟩)
        [.leaf (.text "</b>".toList)]]

theorem parse_print_canonicalSample : canonicalSample.Canonical ∧
    ∃ d', parse (canonicalSample.print .verbatim) = .ok d' ∧
      d'.tree root = canonicalSample.tree root := by
  have hdoctype : Text.CanonicalDoctype "html".toList := by
    refine ⟨by decide, by decide, fun a ha => ?_, by decide⟩
    rw [List.count_eq_zero_of_not_mem fun hmem => absurd (ha.subset hmem) (by decide)]
    exact Nat.zero_le _
  have hp : Element.Canonical ⟨['p'], some ['"'], none, [⟨['a'], ['\'']⟩], false⟩ := by
    refine ⟨by decide, List.all_eq_true.mp (by decide), fun a ha => ?_, by decide⟩
    obtain rfl := List.mem_singleton.mp ha
    exact ⟨by decide, List.all_eq_true.mp (by decide), by decide, by decide⟩
  have hbr : Element.Canonical ⟨['b', 'r'], none, none, [], false⟩ :=
    ⟨by decide, List.all_eq_true.mp (by decide), List.forall_mem_nil _, by decide⟩
  have hstyle : Element.Canonical ⟨"style".toList, none, none, [⟨['b'], []⟩], false⟩ := by
    refine ⟨by decide, List.all_eq_true.mp (by decide), fun a ha => ?_, by decide⟩
    obtain rfl := List.mem_singleton.mp ha
    exact ⟨by decide, List.all_eq_true.mp (by decide), by decide, by decide⟩
  have hplain : Lexeme.Plain ['<'] := Lexeme.plain_nil.cons rfl
  have hbody : Lexeme.HoldsNoEnd "style".toList "</b>".toList := by
    intro before n after c heq hsame
    have hlength := congrArg List.length heq
    have hname := congrArg List.length (beq_iff_eq.mp hsame)
    simp [Text.fold] at hlength hname
    omega
  have h : canonicalSample.Canonical := by
    refine ⟨_, tree_root_ofTrees _, ⟨hdoctype, rfl⟩, False.elim,
      ⟨hp, fun hbare => absurd hbare (by decide), ?_⟩, False.elim,
      ⟨hstyle, fun hbare => absurd hbare (by decide), ?_⟩, False.elim, trivial⟩
    · rw [if_neg (by decide)]
      refine ⟨⟨by decide, hplain, rfl⟩, fun _ s hs => ?_, ⟨hbr, fun _ => rfl, trivial⟩,
        False.elim, trivial⟩
      obtain rfl : s = .leaf _ := (Option.some.inj hs).symm
      exact not_false
    · rw [if_pos (by decide)]
      exact Or.inr ⟨_, rfl, by decide, hbody⟩
  exact ⟨h, parse_print_of_canonical h⟩

end Document

end Stencil
