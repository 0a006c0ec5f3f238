/-
# The structure of documents that are read

Whatever source a document was read from, it has a structure that all who use it may rely on: void
elements and those written as `<name/>` have no children, a raw element has nothing in it but one
text, no text is empty, no two attributes of an element have the same name, and no directive was
left among them (`Document.Sound`).

Most of this is granted by one token at a time.  Raw elements are not: what the building of trees
puts into one is whatever stands up to its end tag, so it must be known of the tokens that behind
the start tag of a raw element there is at most one text and then an end tag, which moreover is not
passed over as that of a void element.  `Token.Orderly` says this of a row of tokens.  A source is
read as such a row (`Reads.orderly`), and trees that are written by one are sound
(`Token.Derives.sound`).
-/
import Stencil.Proofs.Document.Navigation
import Stencil.Proofs.Markup.Canonical
import Stencil.Proofs.Markup.Stability

namespace Stencil

/-! ## 1. Attributes -/

/-- The attributes have different names, and none of them is a directive. -/
structure Element.WellAttributed (e : Element) : Prop where
  nodup_names : (e.attributes.map Attribute.name).Nodup
  not_directive : ∀ a ∈ e.attributes, a.name ∉ directiveNames

theorem Attribute.of_mem_put {name value : Text} {as : List Attribute} {a : Attribute}
    (h : a ∈ put name value as) : a ∈ as ∨ a = ⟨name, value⟩ := by
  rcases put_cases name value as with ⟨front, old, behind, rfl, hput⟩ | ⟨-, hput⟩
  · rw [hput] at h
    simp only [List.mem_append, List.mem_cons] at h ⊢
    tauto
  · rw [hput] at h
    simpa using h

theorem Element.WellAttributed.withAttribute {e : Element} (h : e.WellAttributed) {name : Text}
    (hname : name ∉ directiveNames) (value : Text) :
    (e.withAttribute name value).WellAttributed where
  nodup_names := (AttributeCall.does_run e (.set name value)).nodup_names h.nodup_names
  not_directive a ha := by
    rcases Attribute.of_mem_put ha with ha | rfl
    · exact h.not_directive a ha
    · exact hname

/-- An attribute that is not taken out of the others bears no name of a directive. -/
theorem Attribute.not_directive_of_ofAttribute? {a : Attribute} (h : Branch.ofAttribute? a = none)
    (hname : a.name ≠ declarationKeyword) : a.name ∉ directiveNames := by
  unfold Branch.ofAttribute? at h
  split at h
  · exact absurd h nofun
  · next hif =>
    split at h
    · exact absurd h nofun
    · next helseIf =>
      split at h
      · exact absurd h nofun
      · next helse => simp [directiveNames, hname, hif, helseIf, helse]

namespace Tag

variable {p : Nat} {e e' : Element}

/-- **One more attribute of a tag leaves an element well attributed.** -/
theorem wellAttributed_of_attach {a : Attribute} (he : e.WellAttributed)
    (h : attach p e a = .ok e') : e'.WellAttributed := by
  unfold attach at h
  split at h
  · obtain rfl := Except.ok.inj h
    exact ⟨he.nodup_names, he.not_directive⟩
  · next hname =>
    split at h
    · next hbranch =>
      obtain rfl := Except.ok.inj h
      exact he.withAttribute (Attribute.not_directive_of_ofAttribute? hbranch hname) a.value
    · obtain rfl := Except.ok.inj h
      exact ⟨he.nodup_names, he.not_directive⟩
    · exact absurd h nofun

/-- **The element of a tag is well attributed**, however often the tag repeats an attribute. -/
theorem wellAttributed_of_element {selfClosing : Bool} {content : Text}
    (h : element p selfClosing content = .ok e) : e.WellAttributed := by
  have hfold : ∀ (as : List Attribute) {e e' : Element}, e.WellAttributed →
      as.foldlM (attach p) e = .ok e' → e'.WellAttributed := by
    intro as
    induction as with
    | nil =>
      intro e e' he h
      exact Except.ok.inj h ▸ he
    | cons a as ih =>
      intro e e' he h
      obtain ⟨e'', ha, has⟩ := foldlM_attach_cons.mp h
      exact ih (wellAttributed_of_attach he ha) has
  have hbare : Element.WellAttributed { name := Tag.name content, selfClosing := selfClosing } :=
    ⟨List.nodup_nil, fun _ ha => absurd ha List.not_mem_nil⟩
  exact hfold _ hbare (element_eq_ok.mp h).2

end Tag

/-! ## 2. Texts -/

/-- The text is as it is read outside of raw elements: a run in which no markup begins, or one CDATA
section, from its beginning to the first end of one. -/
def Text.Usual (t : Text) : Prop :=
  Lexeme.Plain t ∨ ∃ body, (Lexeme.cdata body).Legible (.text t)

/-- **A text that is cut off a source is usual.** -/
theorem Lexeme.usual_of_cut {s rest t : Text} {l : Lexeme} (hne : s ≠ [])
    (hcut : cut s = .ok (l, rest)) (hmeans : l.Means (.text t)) : t ≠ [] ∧ t.Usual := by
  obtain ⟨hwritten, hpiece⟩ := cut_written hne hcut
  rcases isMarkup_or_of_cut hcut with ⟨hbegins, hmarkup⟩ | ⟨-, hrun, -⟩
  · cases l with
    | text t => exact hmarkup.elim
    | raw t => exact hmarkup.elim
    | tag content =>
      rcases Token.ofTag_cases hmeans with ⟨-, h⟩ | ⟨-, -, e, -, h⟩ | ⟨-, -, e, -, h⟩ <;>
        cases h
    | comment body => cases hmeans
    | instruction body => cases hmeans
    | doctype content =>
      simp only [Means, Token.ofLexeme, Token.ofDoctype] at hmeans
      split at hmeans <;> cases hmeans
    | cdata body =>
      obtain rfl : (cdata body).written = t := Token.text.inj (Except.ok.inj hmeans)
      exact ⟨hpiece, Or.inr ⟨body, cut_alone hbegins hcut, hmeans⟩⟩
  · obtain rfl : (text t) = l := by
      rw [hrun] at hmeans ⊢
      exact congrArg _ (Token.text.inj (Except.ok.inj hmeans)).symm
    rw [← hwritten] at hcut
    exact ⟨hpiece, Or.inl (plain_of_cut hcut).1⟩

/-! ## 3. Tokens in order -/

namespace Token

/-- The token is one that is read outside of raw elements, and opens none. -/
def Usual : Token → Prop
  | text t => t ≠ [] ∧ t.Usual
  | opening e => e.WellAttributed ∧ isRawName e.name = false
  | empty e => e.WellAttributed
  | _ => True

/-- The tokens are usual, but for the start tags of raw elements: behind such a one there is at
most one text, and then an end tag that is not passed over. -/
inductive Orderly : List Token → Prop
  | nil : Orderly []
  | cons {token : Token} {rest : List Token} (htoken : token.Usual) (hrest : Orderly rest) :
    Orderly (token :: rest)
  | raw {e : Element} {name : Text} {content rest tokens : List Token} (he : e.WellAttributed)
      (hraw : isRawName e.name = true)
      (hcontent : content = [] ∨ ∃ t, t ≠ [] ∧ content = [.text t])
      (hvoid : isVoidName name = false) (htokens : content ++ .closing name :: rest = tokens)
      (hrest : Orderly (.closing name :: rest)) : Orderly (.opening e :: tokens)

end Token

/-- The element of a start tag is well attributed. -/
theorem Lexeme.Means.wellAttributed {l : Lexeme} {e : Element} (h : l.Means (.opening e)) :
    e.WellAttributed := by
  cases h.says with
  | opening _ _ he => exact Tag.wellAttributed_of_element he

/-- What a lexeme that opens no raw element means is usual. -/
theorem Lexeme.Means.usual {s rest : Text} {l : Lexeme} {token : Token} (hne : s ≠ [])
    (hcut : Lexeme.cut s = .ok (l, rest)) (hraw : l.rawName? = none) (h : l.Means token) :
    token.Usual := by
  cases token with
  | text t => exact Lexeme.usual_of_cut hne hcut h
  | opening e =>
    have hname := Lexeme.rawName?_of_opening h
    refine ⟨h.wellAttributed, Bool.eq_false_iff.mpr fun heraw => ?_⟩
    rw [if_pos heraw, hraw] at hname
    exact absurd hname nofun
  | empty e =>
    cases h.says with
    | empty hend he => exact Tag.wellAttributed_of_element he
  | doctype t => trivial
  | closing name => trivial
  | dropped => trivial

/-- **A source is read as tokens in order.** -/
theorem Reads.orderly {s : Text} {ps : List Piece} (h : Reads s ps []) :
    Token.Orderly (ps.map Piece.token) := by
  generalize hend : ([] : Text) = rest at h
  induction h with
  | done => exact .nil
  | piece hne hcut hraw hmeans _ ih => exact .cons (hmeans.usual hne hcut hraw) (ih hend)
  | @raw _ rest body close _ name l token ps hne hcut hraw hmeans hbody hclose hrest ih =>
    obtain ⟨e, rfl, rfl, heraw⟩ := Lexeme.exists_opening_of_rawName? hmeans hraw
    have hcloses : Lexeme.closesRaw e.name close = true := Text.holds_of_breakBefore hbody hclose
    have hbehind : ∃ q qs n, ps = q :: qs ∧ q.token = .closing n ∧ isVoidName n = false := by
      cases hrest with
      | done => exact absurd hend.symm hclose
      | piece _ hcut' _ hmeans' _ =>
        obtain ⟨n, hn, hvoid⟩ := Lexeme.exists_closing_of_closesRaw heraw hcloses hcut' hmeans'
        exact ⟨_, _, n, rfl, hn, hvoid⟩
      | raw _ hcut' _ hmeans' _ _ _ =>
        obtain ⟨n, hn, hvoid⟩ := Lexeme.exists_closing_of_closesRaw heraw hcloses hcut' hmeans'
        exact ⟨_, _, n, rfl, hn, hvoid⟩
    obtain ⟨q, qs, n, rfl, hclosing, hvoid⟩ := hbehind
    have hcontent : (Piece.ofRaw body).map Piece.token = [] ∨
        ∃ t, t ≠ [] ∧ (Piece.ofRaw body).map Piece.token = [.text t] := by
      unfold Piece.ofRaw
      split
      · exact Or.inl rfl
      · next hne => exact Or.inr ⟨body, hne, rfl⟩
    have hrest' := ih hend
    rw [List.map_cons, hclosing] at hrest'
    rw [List.map_cons, List.map_append, List.map_cons, hclosing]
    exact .raw hmeans.wellAttributed heraw hcontent hvoid rfl hrest'

/-! ## 4. Trees that are written in order -/

namespace Tree

/-- The texts among the trees are usual. -/
def UsualTexts (ts : List Tree) : Prop := ∀ u ∈ ts, ∀ t, u.kind = .text t → t.Usual

/-- The node is furnished as tokens in order make it. -/
structure Furnished (kind : NodeKind) (children : List Tree) : Prop where
  text_ne : ∀ t, kind = .text t → t ≠ []
  wellAttributed : ∀ e, kind = .element e → e.WellAttributed
  raw_children : ∀ e, kind = .element e → isRawName e.name = true →
    children = [] ∨ ∃ t, children = [leaf (.text t)]
  usual_children : (∀ e, kind = .element e → isRawName e.name = false) → UsualTexts children

theorem usualTexts_nil : UsualTexts [] := fun _ hu => absurd hu List.not_mem_nil

theorem furnished_text {t : Text} (ht : t ≠ []) : Furnished (.text t) [] where
  text_ne _ h := NodeKind.text.inj h ▸ ht
  wellAttributed _ h := NodeKind.noConfusion h
  raw_children _ h := NodeKind.noConfusion h
  usual_children _ := usualTexts_nil

theorem furnished_doctype (t : Text) : Furnished (.doctype t) [] where
  text_ne _ h := NodeKind.noConfusion h
  wellAttributed _ h := NodeKind.noConfusion h
  raw_children _ h := NodeKind.noConfusion h
  usual_children _ := usualTexts_nil

theorem furnished_element {e : Element} {children : List Tree} (he : e.WellAttributed)
    (hraw : isRawName e.name = true → children = [] ∨ ∃ t, children = [leaf (.text t)])
    (hrow : isRawName e.name = false → UsualTexts children) :
    Furnished (.element e) children where
  text_ne _ h := NodeKind.noConfusion h
  wellAttributed _ h := NodeKind.element.inj h ▸ he
  raw_children _ h := NodeKind.element.inj h ▸ hraw
  usual_children h := hrow (h e rfl)

theorem furnished_childless {e : Element} (he : e.WellAttributed) : Furnished (.element e) [] :=
  furnished_element he (fun _ => Or.inl rfl) fun _ => usualTexts_nil

end Tree

namespace Token

open Stencil.Tree (EachAll Furnished UsualTexts leaf)

variable {token : Token} {tokens inside behind rest : List Token} {us ts children : List Tree}

/-- What a usual token writes alone. -/
theorem Usual.alone (h : token.Usual) (halone : token.alone? = some us) :
    EachAll Furnished us ∧ UsualTexts us := by
  have hnone : EachAll Furnished [] ∧ UsualTexts [] := ⟨trivial, Tree.usualTexts_nil⟩
  have hleaf : ∀ {kind : NodeKind}, Furnished kind [] → (∀ t, kind = .text t → t.Usual) →
      EachAll Furnished [leaf kind] ∧ UsualTexts [leaf kind] := fun hkind htext =>
    ⟨⟨Tree.each_leaf hkind, trivial⟩, List.forall_mem_singleton.mpr htext⟩
  cases token with
  | text t =>
    obtain rfl := Option.some.inj halone
    exact hleaf (Tree.furnished_text h.1) fun _ ht => NodeKind.text.inj ht ▸ h.2
  | doctype t =>
    obtain rfl := Option.some.inj halone
    exact hleaf (Tree.furnished_doctype t) fun _ ht => NodeKind.noConfusion ht
  | dropped =>
    obtain rfl := Option.some.inj halone
    exact hnone
  | empty e =>
    obtain rfl := Option.some.inj halone
    exact hleaf (Tree.furnished_childless h) fun _ ht => NodeKind.noConfusion ht
  | opening e =>
    rw [alone?] at halone
    split at halone
    · obtain rfl := Option.some.inj halone
      exact hleaf (Tree.furnished_childless h.1) fun _ ht => NodeKind.noConfusion ht
    · cases halone
  | closing name =>
    rw [alone?] at halone
    split at halone
    · obtain rfl := Option.some.inj halone
      exact hnone
    · cases halone

/-- Tokens that write trees do not begin with an end tag, but for those of void elements. -/
theorem Derives.eq_nil_of_closing {name name' : Text} (h : Derives inside children)
    (hvoid : isVoidName name = false)
    (heq : .closing name :: rest = inside ++ .closing name' :: behind) :
    inside = [] ∧ children = [] := by
  cases h with
  | nil => exact ⟨rfl, rfl⟩
  | alone halone _ =>
    obtain ⟨rfl, -⟩ := List.cons.inj heq
    rw [alone?, hvoid] at halone
    cases halone
  | element => cases (List.cons.inj heq).1

/-- **What is written between the tags of a raw element** is what stands up to the first end tag. -/
theorem Derives.eq_of_raw {name name' : Text} {content : List Token} (h : Derives inside children)
    (hvoid : isVoidName name = false) (hcontent : content = [] ∨ ∃ t, t ≠ [] ∧ content = [.text t])
    (heq : content ++ .closing name :: rest = inside ++ .closing name' :: behind) :
    inside = content ∧ (children = [] ∨ ∃ t, t ≠ [] ∧ children = [leaf (.text t)]) := by
  rcases hcontent with rfl | ⟨t, ht, rfl⟩
  · obtain ⟨rfl, rfl⟩ := h.eq_nil_of_closing hvoid heq
    exact ⟨rfl, Or.inl rfl⟩
  · cases h with
    | nil => cases (List.cons.inj heq).1
    | element => cases (List.cons.inj heq).1
    | alone halone hrest =>
      obtain ⟨rfl, heq'⟩ := List.cons.inj heq
      obtain rfl := Option.some.inj halone
      obtain ⟨rfl, rfl⟩ := hrest.eq_nil_of_closing hvoid heq'
      exact ⟨rfl, Or.inr ⟨t, ht, rfl⟩⟩

/-- Behind an end tag the tokens are in order. -/
theorem Orderly.of_closing {name : Text} (h : Orderly (.closing name :: rest)) : Orderly rest := by
  cases h with
  | cons _ hrest => exact hrest

/-- **Trees that are written by tokens in order are furnished**, and what is behind their tokens is
in order. -/
theorem Derives.furnished (h : Derives tokens ts) : ∀ {more : List Token},
    Orderly (tokens ++ more) → (EachAll Furnished ts ∧ UsualTexts ts) ∧ Orderly more := by
  induction h with
  | nil => exact fun hmore => ⟨⟨trivial, fun _ hu => absurd hu List.not_mem_nil⟩, hmore⟩
  | alone halone _ ih =>
    intro more horderly
    cases horderly with
    | cons htoken hrest =>
      obtain ⟨hus, hustexts⟩ := htoken.alone halone
      obtain ⟨⟨hts, htexts⟩, hmore⟩ := ih hrest
      refine ⟨⟨Tree.eachAll_append.mpr ⟨hus, hts⟩, fun u hu => ?_⟩, hmore⟩
      exact (List.mem_append.mp hu).elim (hustexts u) (htexts u)
    | raw he hraw _ _ _ _ =>
      have hvoid := isVoidName_of_isRawName hraw
      rw [alone?, if_neg (by simp [Element.isVoid, hvoid])] at halone
      cases halone
  | @element e name inside rest children ts hvoid hname hinside _ ihinside ih =>
    intro more horderly
    rw [List.cons_append, List.append_assoc, List.cons_append] at horderly
    -- the element goes in front of what is behind its end tag, once its children are known
    suffices hhere : Furnished (.element e) children ∧ EachAll Furnished children ∧
        Orderly (.closing name :: (rest ++ more)) by
      obtain ⟨helement, hchildren, hbehind⟩ := hhere
      obtain ⟨⟨hts, htexts⟩, hmore⟩ := ih hbehind.of_closing
      refine ⟨⟨⟨⟨helement, hchildren⟩, hts⟩, List.forall_mem_cons.mpr ⟨?_, htexts⟩⟩, hmore⟩
      exact fun _ ht => NodeKind.noConfusion ht
    cases horderly with
    | cons htoken hrest =>
      obtain ⟨hattributes, hraw⟩ := htoken
      obtain ⟨⟨hchildren, htexts⟩, hbehind⟩ := ihinside hrest
      refine ⟨Tree.furnished_element hattributes (fun hraw' => ?_) fun _ => htexts, hchildren,
        hbehind⟩
      exact absurd (hraw.symm.trans hraw') Bool.false_ne_true
    | raw he hraw hcontent hvoid' htokens hrest =>
      obtain ⟨rfl, hchildren⟩ := hinside.eq_of_raw hvoid' hcontent htokens
      rw [List.append_cancel_left htokens] at hrest
      have heach : EachAll Furnished children := by
        rcases hchildren with rfl | ⟨t, ht, rfl⟩
        · trivial
        · exact ⟨Tree.each_leaf (Tree.furnished_text ht), trivial⟩
      refine ⟨Tree.furnished_element he (fun _ => ?_) fun hraw' => ?_, heach, hrest⟩
      · exact hchildren.imp_right (Exists.imp fun _ h => h.2)
      · exact absurd (hraw'.symm.trans hraw) Bool.false_ne_true

end Token

/-- **The trees that are read are furnished**, and the texts at the top are usual. -/
theorem Tree.furnished_of_parse {source : Text} {ts : List Tree} (h : parse source = .ok ts) :
    EachAll Furnished ts ∧ UsualTexts ts := by
  obtain ⟨ps, hreads, hderives⟩ := parse_eq_ok_iff.mp h
  have horderly := hreads.orderly
  rw [← List.append_nil (ps.map _)] at horderly
  exact (hderives.furnished horderly).1

/-! ## 5. Documents -/

namespace Document

open Stencil.Tree

/-- The structure of documents that are read. -/
structure Sound (d : Document) : Prop where
  /-- Only the root is a fragment. -/
  fragment_iff : ∀ id < d.size, d.kind id = .fragment ↔ id = root
  /-- Void elements, in any case, and those that are written as `<name/>` have no children. -/
  children_eq_nil : ∀ id e, d.kind id = .element e → e.isVoid = true ∨ e.selfClosing = true →
    d.children id = []
  /-- Other raw elements have no child, or one, which is a text. -/
  raw_children : ∀ id e, d.kind id = .element e → isRawName e.name = true → e.selfClosing = false →
    d.children id = [] ∨ ∃ x t, d.children id = [x] ∧ d.kind x = .text t
  text_ne : ∀ id t, d.kind id = .text t → t ≠ []
  nodup_names : ∀ id e, d.kind id = .element e → (e.attributes.map Attribute.name).Nodup
  /-- No attribute bears the name of a directive. -/
  not_directive : ∀ id e, d.kind id = .element e → ∀ a ∈ e.attributes, a.name ∉ directiveNames
  /-- A text that is not in a raw element is a run in which no markup begins, or a CDATA section. -/
  text_cases : ∀ id t, d.kind id = .text t →
    (∃ p e, d.parent? id = some p ∧ d.kind p = .element e ∧ isRawName e.name = true) ∨
      Lexeme.Plain t ∨ ∃ body, (Lexeme.cdata body).Legible (.text t)

variable {d : Document} {Q : NodeKind → List Tree → Prop}

/-- What each node of the trees at the top has, with the trees under it, each node below the root
has. -/
theorem each_tree (hd : d.WellFormed) (h : EachAll Q d.trees) {id : NodeId} (hid : d.Below root id)
    (hne : id ≠ root) : (d.tree id).Each Q := by
  induction hid with
  | refl => exact absurd rfl hne
  | @step x p hp _ ih =>
    have hx : x ∈ d.children p := hd.mem_children_iff.mpr hp
    by_cases hproot : p = root
    · subst hproot
      exact eachAll_iff.mp h _ (List.mem_map_of_mem hx)
    · have hparent := ih hproot
      rw [Document.tree_eq hd p] at hparent
      exact eachAll_iff.mp hparent.2 _ (List.mem_map_of_mem hx)

theorem holds_of_eachAll (hd : d.WellFormed) (h : EachAll Q d.trees) {id : NodeId}
    (hid : d.Below root id) (hne : id ≠ root) : Q (d.kind id) ((d.children id).map d.tree) := by
  have heach := each_tree hd h hid hne
  rw [Document.tree_eq hd id] at heach
  exact heach.1

/-- A text stands in a raw element, or it is usual. -/
theorem usual_of_furnished (hd : d.WellFormed) (hfurnished : EachAll Furnished d.trees)
    (htexts : UsualTexts d.trees) {id : NodeId} {t : Text} (hid : d.Below root id)
    (hne : id ≠ root) (hkind : d.kind id = .text t) :
    (∃ p e, d.parent? id = some p ∧ d.kind p = .element e ∧ isRawName e.name = true) ∨
      t.Usual := by
  obtain ⟨p, hp, hbelow⟩ : ∃ p, d.parent? id = some p ∧ d.Below root p := by
    cases hid with
    | refl => exact absurd rfl hne
    | @step _ p hp hbelow => exact ⟨p, hp, hbelow⟩
  by_cases hraw : ∃ e, d.kind p = .element e ∧ isRawName e.name = true
  · obtain ⟨e, he, hraw⟩ := hraw
    exact Or.inl ⟨p, e, hp, he, hraw⟩
  · right
    have hrow : UsualTexts ((d.children p).map d.tree) := by
      by_cases hproot : p = root
      · rw [hproot]
        exact htexts
      · refine (holds_of_eachAll hd hfurnished hbelow hproot).usual_children fun e he => ?_
        exact Bool.eq_false_iff.mpr fun hraw' => hraw ⟨e, he, hraw'⟩
    have hmem : d.tree id ∈ (d.children p).map d.tree :=
      List.mem_map_of_mem (hd.mem_children_iff.mpr hp)
    exact hrow _ hmem t ((kind_tree d id).trans hkind)

/-- **A document of furnished trees is sound**, if it has no nodes that were taken out. -/
theorem sound_of_furnished (hd : d.WellFormed) (hroot : d.kind root = .fragment)
    (hall : ∀ id < d.size, d.Below root id) (hshaped : EachAll Shaped d.trees)
    (hfurnished : EachAll Furnished d.trees) (htexts : UsualTexts d.trees) : d.Sound := by
  have hbelow : ∀ {id : NodeId}, d.kind id ≠ .fragment → d.Below root id ∧ id ≠ root := by
    intro id hkind
    have hid : id < d.size := by
      by_contra hge
      exact hkind (by rw [kind, node?_eq_none_iff.mpr (Nat.not_lt.mp hge)])
    exact ⟨hall id hid, fun h => hkind (h ▸ hroot)⟩
  have hfurnish : ∀ {id : NodeId}, d.kind id ≠ .fragment →
      Furnished (d.kind id) ((d.children id).map d.tree) := fun hkind =>
    holds_of_eachAll hd hfurnished (hbelow hkind).1 (hbelow hkind).2
  have helement : ∀ {id : NodeId} {e : Element}, d.kind id = .element e → d.kind id ≠ .fragment :=
    fun hkind h => NodeKind.noConfusion (hkind.symm.trans h)
  have htext : ∀ {id : NodeId} {t : Text}, d.kind id = .text t → d.kind id ≠ .fragment :=
    fun hkind h => NodeKind.noConfusion (hkind.symm.trans h)
  constructor
  case fragment_iff =>
    intro id hid
    constructor
    · intro hkind
      by_contra hne
      exact (holds_of_eachAll hd hshaped (hall id hid) hne).not_fragment hkind
    · rintro rfl
      exact hroot
  case children_eq_nil =>
    intro id e hkind hbare
    obtain ⟨hid, hne⟩ := hbelow (helement hkind)
    by_contra hchildren
    obtain ⟨e', he', hvoid, hclosing⟩ :=
      (holds_of_eachAll hd hshaped hid hne).paired_of_children (mt List.map_eq_nil_iff.mp hchildren)
    obtain rfl := NodeKind.element.inj (hkind.symm.trans he')
    rcases hbare with h | h
    · cases h.symm.trans hvoid
    · cases h.symm.trans hclosing
  case raw_children =>
    intro id e hkind hraw _
    rcases (hfurnish (helement hkind)).raw_children e hkind hraw with hnil | ⟨t, hsingle⟩
    · exact Or.inl (List.map_eq_nil_iff.mp hnil)
    · obtain ⟨x, hx, htree⟩ := List.map_eq_singleton_iff.mp hsingle
      refine Or.inr ⟨x, t, hx, ?_⟩
      rw [← kind_tree, htree]
      rfl
  case text_ne => exact fun id t hkind => (hfurnish (htext hkind)).text_ne t hkind
  case nodup_names =>
    exact fun id e hkind => ((hfurnish (helement hkind)).wellAttributed e hkind).nodup_names
  case not_directive =>
    exact fun id e hkind => ((hfurnish (helement hkind)).wellAttributed e hkind).not_directive
  case text_cases =>
    intro id t hkind
    obtain ⟨hid, hne⟩ := hbelow (htext hkind)
    exact usual_of_furnished hd hfurnished htexts hid hne hkind

/-- **Every document that is read is sound.** -/
theorem sound_of_parse {source : Text} {d : Document} (h : parse source = .ok d) : d.Sound := by
  obtain ⟨ts, hts, rfl⟩ := exists_of_map_eq_ok h
  have hd := wellFormed_ofTrees ts
  obtain ⟨hfurnished, htexts⟩ := furnished_of_parse hts
  have hshaped := shaped_of_parse hts
  rw [← trees_ofTrees ts] at hfurnished htexts hshaped
  refine sound_of_furnished hd (kind_root_ofTrees ts) (fun id hid => ?_) hshaped hfurnished htexts
  rw [← mem_descendants_iff hd, descendants_ofTrees]
  exact List.mem_range.mpr hid

/-- A repeated attribute and a directive, a void element, a raw element with an end tag of another
element in it, a CDATA section, and a raw element without content. -/
def mixedSource : Text :=
  ("<P a=1 b @if=x a=2>1 < 2<BR></P><Script>\"</p>\"</SCRIPT ><![CDATA[<b>]]><style/>").toList

/-- What the source writes. -/
def mixedSample : Document :=
  ofTrees [.node (.element
      { name := ['P'], branch := some (.when ['x']), attributes := [⟨['a'], ['2']⟩, ⟨['b'], []⟩] })
      [.leaf (.text "1 < 2".toList), .leaf (.element { name := ['B', 'R'] })],
    .node (.element { name := "Script".toList }) [.leaf (.text "\"</p>\"".toList)],
    .leaf (.text "<![CDATA[<b>]]>".toList),
    .leaf (.element { name := "style".toList, selfClosing := true })]

theorem sound_mixedSample :
    parse mixedSource = .ok mixedSample ∧ mixedSample.Sound ∧
    (List.range mixedSample.size).map mixedSample.children =
      [[1, 4, 6, 7], [2, 3], [], [], [5], [], [], []] := by
  have hparse : (parse mixedSource).toOption = some mixedSample := by decide +kernel
  exact ⟨eq_ok_of_toOption hparse, sound_of_parse (eq_ok_of_toOption hparse), by decide +kernel⟩

end Document

end Stencil
