/-
# What lexemes mean

A lexeme is given its meaning together with the place where it stands, but the place only goes into
faults: a lexeme that has a meaning has it everywhere (`Lexeme.Means`).

All that a lexeme may mean is said once (`Lexeme.Says`), so that what a token comes from can be
looked up by its kind.  The element of a start tag bears the name that the tag begins with
(`Tag.element_name`): the scan looks at that name, before there is an element, to know whether
markup or the content of a raw element follows.
-/
import Mathlib
import Stencil.Markup.Token

namespace Stencil

/-- What a mapped result was before. -/
theorem exists_of_map_eq_ok {α β ε : Type} {f : α → β} {r : Except ε α} {b : β}
    (h : r.map f = .ok b) : ∃ a, r = .ok a ∧ f a = b := by
  cases r with
  | error found => exact absurd h nofun
  | ok a => exact ⟨a, rfl, Except.ok.inj h⟩

theorem eq_ok_of_toOption {α ε : Type} {r : Except ε α} {a : α} (h : r.toOption = some a) :
    r = .ok a := by
  cases r with
  | error fault => exact absurd h (by simp [Except.toOption])
  | ok a' => exact congrArg _ (Option.some.inj h)

/-! ## 1. Where a lexeme stands -/

section Position

variable {p q : Nat}

theorem Tag.attach_position {e e' : Element} {a : Attribute} (h : Tag.attach p e a = .ok e') :
    Tag.attach q e a = .ok e' := by
  unfold Tag.attach at h ⊢
  split
  · next hname => rwa [if_pos hname] at h
  · next hname =>
    rw [if_neg hname] at h
    split at h
    · exact h
    · exact h
    · exact absurd h (by simp)

/-- An element has one attribute after the other attached to it. -/
theorem Tag.foldlM_attach_cons {a : Attribute} {as : List Attribute} {e e' : Element} :
    (a :: as).foldlM (Tag.attach p) e = .ok e' ↔
      ∃ e'', Tag.attach p e a = .ok e'' ∧ as.foldlM (Tag.attach p) e'' = .ok e' := by
  rw [List.foldlM_cons]
  cases ha : Tag.attach p e a with
  | error fault => exact ⟨nofun, nofun⟩
  | ok e'' =>
    constructor
    · exact fun h => ⟨e'', rfl, h⟩
    · rintro ⟨_, ⟨⟩, h⟩
      exact h

/-- **What an element is made of**: attributes that can be read, and attached one by one. -/
theorem Tag.element_eq_ok {selfClosing : Bool} {content : Text} {e : Element} :
    Tag.element p selfClosing content = .ok e ↔
      (Tag.attributes (Text.byteLength content) (content.dropWhile (!Text.isTagBlank ·))).2 = none ∧
      (Tag.attributes (Text.byteLength content)
        (content.dropWhile (!Text.isTagBlank ·))).1.foldlM (Tag.attach p)
          { name := Tag.name content, selfClosing := selfClosing } = .ok e := by
  unfold Tag.element
  generalize Tag.attributes (Text.byteLength content) (content.dropWhile (!Text.isTagBlank ·)) =
    found
  obtain ⟨as, fault⟩ := found
  cases hfolded : as.foldlM (Tag.attach p)
    { name := Tag.name content, selfClosing := selfClosing } with
  | error found =>
    simp only [hfolded]
    exact ⟨nofun, fun h => absurd h.2 nofun⟩
  | ok e' =>
    simp only [hfolded]
    cases fault with
    | none => exact ⟨fun h => ⟨rfl, h⟩, fun h => h.2⟩
    | some found => exact ⟨nofun, fun h => absurd h.1 nofun⟩

/-- Where an element stands matters only if it is faulty. -/
theorem Tag.element_position {selfClosing : Bool} {content : Text} {e : Element}
    (h : Tag.element p selfClosing content = .ok e) :
    Tag.element q selfClosing content = .ok e := by
  have hfold : ∀ (as : List Attribute) {e e' : Element},
      as.foldlM (Tag.attach p) e = .ok e' → as.foldlM (Tag.attach q) e = .ok e' := by
    intro as
    induction as with
    | nil => exact fun h => h
    | cons a as ih =>
      intro e e' h
      obtain ⟨e'', ha, has⟩ := Tag.foldlM_attach_cons.mp h
      exact Tag.foldlM_attach_cons.mpr ⟨e'', Tag.attach_position ha, ih has⟩
  obtain ⟨hfault, hfolded⟩ := Tag.element_eq_ok.mp h
  exact Tag.element_eq_ok.mpr ⟨hfault, hfold _ hfolded⟩

/-- The three kinds of tags. -/
theorem Token.ofTag_cases {content : Text} {token : Token} (h : Token.ofTag p content = .ok token) :
    (content.head? = some '/' ∧
      token = .closing (Text.dropEndWhile Text.isTagBlank (content.drop 1))) ∨
    (content.head? ≠ some '/' ∧ content.getLast? = some '/' ∧
      ∃ e, Tag.element p true content.dropLast = .ok e ∧ token = .empty e) ∨
    (content.head? ≠ some '/' ∧ content.getLast? ≠ some '/' ∧
      ∃ e, Tag.element p false content = .ok e ∧ token = .opening e) := by
  unfold Token.ofTag at h
  split at h
  · next hhead => exact Or.inl ⟨hhead, (Except.ok.inj h).symm⟩
  · next hhead =>
    split at h
    · next hend =>
      obtain ⟨e, he, rfl⟩ := exists_of_map_eq_ok h
      exact Or.inr (Or.inl ⟨hhead, hend, e, he, rfl⟩)
    · next hend =>
      obtain ⟨e, he, rfl⟩ := exists_of_map_eq_ok h
      exact Or.inr (Or.inr ⟨hhead, hend, e, he, rfl⟩)

/-- Where a lexeme stands matters only if it is faulty. -/
theorem Token.ofLexeme_position {l : Lexeme} {token : Token} (h : Token.ofLexeme p l = .ok token) :
    Token.ofLexeme q l = .ok token := by
  cases l with
  | tag content =>
    change Token.ofTag q content = .ok token
    rcases Token.ofTag_cases h with ⟨hhead, rfl⟩ | ⟨hhead, hend, e, he, rfl⟩ |
      ⟨hhead, hend, e, he, rfl⟩
    · rw [Token.ofTag, if_pos hhead]
    · rw [Token.ofTag, if_neg hhead, if_pos hend, Tag.element_position he]
      rfl
    · rw [Token.ofTag, if_neg hhead, if_neg hend, Tag.element_position he]
      rfl
  | doctype content =>
    change Token.ofDoctype p content = .ok token at h
    change Token.ofDoctype q content = .ok token
    unfold Token.ofDoctype at h ⊢
    dsimp only at h ⊢
    split
    · next hbody =>
      rw [if_pos hbody] at h
      exact absurd h (by simp)
    · next hbody => rwa [if_neg hbody] at h
  | _ => exact h

end Position

/-- What the lexeme means, wherever it stands. -/
def Lexeme.Means (l : Lexeme) (token : Token) : Prop := Token.ofLexeme 0 l = .ok token

theorem Lexeme.Means.ofLexeme {l : Lexeme} {token : Token} (h : l.Means token) (p : Nat) :
    Token.ofLexeme p l = .ok token :=
  Token.ofLexeme_position h

/-! ## 2. What a lexeme may mean -/

section Tags

variable {p : Nat} {content : Text} {token : Token} {e : Element}

theorem Tag.attach_name {e' : Element} {a : Attribute} (h : Tag.attach p e a = .ok e') :
    e'.name = e.name ∧ e'.selfClosing = e.selfClosing := by
  unfold Tag.attach at h
  split at h
  · obtain rfl := Except.ok.inj h
    exact ⟨rfl, rfl⟩
  · split at h
    · obtain rfl := Except.ok.inj h
      exact ⟨rfl, rfl⟩
    · obtain rfl := Except.ok.inj h
      exact ⟨rfl, rfl⟩
    · exact absurd h nofun

/-- An element has the name that its tag begins with. -/
theorem Tag.element_name {selfClosing : Bool} (h : Tag.element p selfClosing content = .ok e) :
    e.name = Tag.name content ∧ e.selfClosing = selfClosing := by
  have hfold : ∀ (as : List Attribute) {e e' : Element}, as.foldlM (Tag.attach p) e = .ok e' →
      e'.name = e.name ∧ e'.selfClosing = e.selfClosing := by
    intro as
    induction as with
    | nil =>
      intro e e' h
      obtain rfl := Except.ok.inj h
      exact ⟨rfl, rfl⟩
    | cons a as ih =>
      intro e e' h
      obtain ⟨e'', ha, has⟩ := Tag.foldlM_attach_cons.mp h
      obtain ⟨hname, hclosing⟩ := Tag.attach_name ha
      obtain ⟨hname', hclosing'⟩ := ih has
      exact ⟨hname'.trans hname, hclosing'.trans hclosing⟩
  exact hfold _ (Tag.element_eq_ok.mp h).2

/-- What a lexeme may mean: tags and doctypes are read, markup that is not kept ends in a `>`, and
all else is text as it stands. -/
inductive Lexeme.Says : Lexeme → Token → Prop
  | text {l : Lexeme} (hraw : l.rawName? = none) : Says l (.text l.written)
  | dropped {l : Lexeme} (hend : '>' ∈ l.written) : Says l .dropped
  | doctype {content : Text} :
    Says (.doctype content) (.doctype (Text.trim
      ((content.drop doctypeKeyword.length).dropWhile Text.isTagBlank)))
  | closing {content : Text} :
    Says (.tag ('/' :: content)) (.closing (Text.dropEndWhile Text.isTagBlank content))
  | empty {content : Text} {e : Element} (hend : content.getLast? = some '/')
      (he : Tag.element 0 true content.dropLast = .ok e) : Says (.tag content) (.empty e)
  | opening {content : Text} {e : Element} (hhead : content.head? ≠ some '/')
      (hend : content.getLast? ≠ some '/') (he : Tag.element 0 false content = .ok e) :
    Says (.tag content) (.opening e)

/-- **The meaning of a lexeme is one that it may have.** -/
theorem Lexeme.says_of_ofLexeme {l : Lexeme} (h : Token.ofLexeme p l = .ok token) :
    l.Says token := by
  cases l with
  | tag content =>
    rcases Token.ofTag_cases h with ⟨hhead, rfl⟩ | ⟨-, hend, e, he, rfl⟩ | ⟨hhead, hend, e, he, rfl⟩
    · obtain ⟨content, rfl⟩ := List.head?_eq_some_iff.mp hhead
      exact .closing
    · exact .empty hend (Tag.element_position he)
    · exact .opening hhead hend (Tag.element_position he)
  | doctype content =>
    simp only [Token.ofLexeme, Token.ofDoctype] at h
    split at h
    · exact absurd h nofun
    · obtain rfl := Except.ok.inj h
      exact .doctype
  | comment body =>
    obtain rfl := Except.ok.inj h
    exact .dropped (by simp [written])
  | instruction body =>
    obtain rfl := Except.ok.inj h
    exact .dropped (by simp [written])
  | _ =>
    obtain rfl := Except.ok.inj h
    exact .text rfl

theorem Lexeme.Means.says {l : Lexeme} (h : l.Means token) : l.Says token :=
  says_of_ofLexeme h

/-- A start tag opens a raw element if the name of its element is that of one. -/
theorem Lexeme.rawName?_of_opening {l : Lexeme} (h : l.Means (.opening e)) :
    l.rawName? = if isRawName e.name then some e.name else none := by
  cases h.says with
  | opening hhead hend he =>
    rw [rawName?, if_neg (by simp [hhead, hend]), (Tag.element_name he).1]

theorem Lexeme.rawName?_of_empty {l : Lexeme} (h : l.Means (.empty e)) : l.rawName? = none := by
  cases h.says with
  | empty hend he => rw [rawName?, if_pos (Or.inr hend)]

theorem Lexeme.rawName?_of_closing {l : Lexeme} {name : Text} (h : l.Means (.closing name)) :
    l.rawName? = none := by
  cases h.says with
  | closing => rw [rawName?, if_pos (Or.inl List.head?_cons)]

theorem Lexeme.rawName?_of_text {l : Lexeme} {t : Text} (h : l.Means (.text t)) :
    l.rawName? = none := by
  cases h.says with
  | text hraw => exact hraw

theorem Lexeme.rawName?_of_doctype {l : Lexeme} {t : Text} (h : l.Means (.doctype t)) :
    l.rawName? = none := by
  cases h.says with
  | doctype => rfl

/-- **A lexeme that opens a raw element is the start tag of one.** -/
theorem Lexeme.exists_opening_of_rawName? {l : Lexeme} {name : Text} (h : l.Means token)
    (hraw : l.rawName? = some name) :
    ∃ e, token = .opening e ∧ e.name = name ∧ isRawName name = true := by
  unfold Lexeme.rawName? at hraw
  split at hraw
  · split at hraw
    · exact absurd hraw nofun
    · next hbare =>
      obtain ⟨hhead, hend⟩ := not_or.mp hbare
      split at hraw
      · next hname =>
        obtain rfl := Option.some.inj hraw
        rcases Token.ofTag_cases h with ⟨hslash, -⟩ | ⟨-, hslash, -⟩ | ⟨-, -, e, he, rfl⟩
        · exact absurd hslash hhead
        · exact absurd hslash hend
        · exact ⟨e, rfl, (Tag.element_name he).1, hname⟩
      · exact absurd hraw nofun
  · exact absurd hraw nofun

/-- No void element is raw. -/
theorem isRawName_of_isVoidName {name : Text} (h : isVoidName name = true) :
    isRawName name = false := by
  have hapart : ∀ v ∈ voidNames, ∀ r ∈ rawNames, Text.fold v ≠ Text.fold r := by decide
  obtain ⟨v, hv, hvname⟩ := List.any_eq_true.mp h
  rw [isRawName, List.any_eq_false]
  intro r hr hrname
  refine hapart v hv r hr ?_
  rw [beq_iff_eq.mp hvname, beq_iff_eq.mp hrname]

theorem isVoidName_of_isRawName {name : Text} (h : isRawName name = true) :
    isVoidName name = false := by
  cases hvoid : isVoidName name with
  | false => rfl
  | true => exact absurd (h.symm.trans (isRawName_of_isVoidName hvoid)) nofun

end Tags

/-! ## 3. The tokens of a source -/

theorem Reading.mem_interpretAll {α β : Type} {f : Nat → α → Except MarkupFault β}
    {fault : Option MarkupFault} {items : List (Nat × α)} {x : Nat × β}
    (hx : x ∈ (interpretAll f fault items).items) : ∃ item, f x.1 item = .ok x.2 := by
  induction items with
  | nil => exact absurd hx List.not_mem_nil
  | cons y items ih =>
    obtain ⟨position, item⟩ := y
    rw [interpretAll] at hx
    cases hitem : f position item with
    | error found =>
      rw [hitem] at hx
      exact absurd hx List.not_mem_nil
    | ok meaning =>
      rw [hitem] at hx
      rcases List.mem_cons.mp hx with rfl | hx
      · exact ⟨item, hitem⟩
      · exact ih hx

/-- Each token of a source is the meaning of a lexeme. -/
theorem Token.exists_of_mem_scan {source : Text} {x : Nat × Token}
    (hx : x ∈ (Token.scan source).items) : ∃ p l, Token.ofLexeme p l = .ok x.2 := by
  obtain ⟨l, hl⟩ := Reading.mem_interpretAll hx
  exact ⟨x.1, l, hl⟩

theorem Token.selfClosing_of_opening {p : Nat} {l : Lexeme} {e : Element}
    (h : Token.ofLexeme p l = .ok (.opening e)) : e.selfClosing = false := by
  cases Lexeme.says_of_ofLexeme h with
  | opening hhead hend he => exact (Tag.element_name he).2

theorem Token.selfClosing_of_empty {p : Nat} {l : Lexeme} {e : Element}
    (h : Token.ofLexeme p l = .ok (.empty e)) : e.selfClosing = true := by
  cases Lexeme.says_of_ofLexeme h with
  | empty hend he => exact (Tag.element_name he).2

end Stencil
