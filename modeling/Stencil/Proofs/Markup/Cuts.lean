/-
# Cuts in front of more text

A lexeme is cut off a source without looking further than its end: whatever is cut off a text that
begins with markup is cut off in the same way when more text follows (`cut_append`).  A run of text
is different, since the markup that ends it lies behind it; but there it is enough to know that what
follows begins with `<`, because no character of a run opens markup together with a `<`
(`breakBefore_plain`).

These facts let a printed piece be looked at alone, and be read wherever it is put.
-/
import Stencil.Markup.Reading
import Stencil.Proofs.Text.Search

namespace Stencil

/-! ## 1. Letter case -/

namespace Text

/-- Small letters are made of letters alone. -/
theorem toLower_ne {c d : Char} (hd : d.val < 'a'.val) (h : c ≠ d) : c.toLower ≠ d := by
  unfold Char.toLower
  split
  · next hupper =>
    intro heq
    have hvalue : c.val + ('a'.val - 'A'.val) = d.val := congrArg Char.val heq
    have hfirst : 'A'.val ≤ c.val := hupper.1
    have hlast : c.val ≤ 'Z'.val := hupper.2
    have hnumber := congrArg UInt32.toNat hvalue
    rw [UInt32.toNat_add] at hnumber
    simp only [UInt32.le_iff_toNat_le, UInt32.lt_iff_toNat_lt] at hd hfirst hlast
    simp at hnumber hd hfirst hlast
    omega
  · exact h

/-- Texts that are the same but for the case of letters are equally long. -/
theorem length_of_sameFold {s t : Text} (h : sameFold s t = true) : s.length = t.length := by
  have hlengths := congrArg List.length (beq_iff_eq.mp h)
  rwa [fold, fold, List.length_map, List.length_map] at hlengths

end Text

/-! ## 2. Ends of pieces -/

namespace Lexeme

variable {t a b : Text}

theorem breakTag_append {quote : Option Char} (h : breakTag quote t = some (a, b)) (r : Text) :
    breakTag quote (t ++ r) = some (a, b ++ r) := by
  induction t generalizing quote a with
  | nil => cases quote <;> exact absurd h (by simp [breakTag])
  | cons c t ih =>
    cases quote with
    | none =>
      rw [breakTag] at h
      rw [List.cons_append, breakTag]
      split at h
      · next hc =>
        obtain ⟨rfl, rfl⟩ := Prod.mk.inj (Option.some.inj h)
        rw [if_pos hc]
      · next hc =>
        obtain ⟨⟨a', b'⟩, htail, heq⟩ := Option.map_eq_some_iff.mp h
        obtain ⟨rfl, rfl⟩ := Prod.mk.inj heq
        rw [if_neg hc, ih htail]
        rfl
    | some q =>
      rw [breakTag] at h
      rw [List.cons_append, breakTag]
      obtain ⟨⟨a', b'⟩, htail, heq⟩ := Option.map_eq_some_iff.mp h
      obtain ⟨rfl, rfl⟩ := Prod.mk.inj heq
      rw [ih htail]
      rfl

theorem breakBalanced_append {depth : Nat} (h : breakBalanced depth t = some (a, b)) (r : Text) :
    breakBalanced depth (t ++ r) = some (a, b ++ r) := by
  induction t generalizing depth a with
  | nil => exact absurd h (by simp [breakBalanced])
  | cons c t ih =>
    rw [breakBalanced] at h
    rw [List.cons_append, breakBalanced]
    split at h
    · next hc =>
      obtain ⟨rfl, rfl⟩ := Prod.mk.inj (Option.some.inj h)
      rw [if_pos hc]
    · next hc =>
      obtain ⟨⟨a', b'⟩, htail, heq⟩ := Option.map_eq_some_iff.mp h
      obtain ⟨rfl, rfl⟩ := Prod.mk.inj heq
      rw [if_neg hc]
      exact Option.map_eq_some_iff.mpr ⟨_, ih htail, rfl⟩

/-! ## 3. One cut -/

theorem cut_declaration (t : Text) : cut ('<' :: '!' :: t) = cutDeclaration t := rfl

theorem cut_instruction (t : Text) : cut ('<' :: '?' :: t) = cutInstruction t := rfl

theorem cut_tag {c : Char} (hbegins : beginsMarkup ('<' :: c :: t) = true) (hdecl : c ≠ '!')
    (hinstr : c ≠ '?') : cut ('<' :: c :: t) = cutTag (c :: t) := by
  unfold cut
  rw [if_pos hbegins]
  split
  · next heq => exact absurd (List.cons.inj (List.cons.inj heq).2).1 hdecl
  · next heq => exact absurd (List.cons.inj (List.cons.inj heq).2).1 hinstr
  · rfl

theorem cut_text (hbegins : beginsMarkup t = false) :
    cut t = .ok (text (Text.breakBefore beginsMarkup t).1,
      (Text.breakBefore beginsMarkup t).2) := by
  unfold cut
  rw [if_neg (by simp [hbegins])]

theorem beginsMarkup_of_ne {c : Char} (hc : c ≠ '<') (t : Text) :
    beginsMarkup (c :: t) = false := by
  unfold beginsMarkup
  split <;> simp_all

/-- What a `<` opens is settled by the two characters behind it. -/
theorem beginsMarkup_lt (d : Char) (t : Text) : beginsMarkup ('<' :: d :: t) =
    (d == '!' || d == '?' || d.isAlpha || (d == '/' && t.head?.any Char.isAlpha)) := by
  by_cases hdecl : d = '!'
  · subst hdecl
    rfl
  · by_cases hinstr : d = '?'
    · subst hinstr
      rfl
    · by_cases hslash : d = '/'
      · subst hslash
        cases t with
        | nil => rfl
        | cons e t => simp [beginsMarkup, Char.isAlpha, Char.isUpper, Char.isLower]
      · rw [show (d == '!') = false from beq_false_of_ne hdecl,
          show (d == '?') = false from beq_false_of_ne hinstr,
          show (d == '/') = false from beq_false_of_ne hslash]
        simp [beginsMarkup, hslash]

theorem beginsMarkup_append (h : beginsMarkup t = true) (r : Text) :
    beginsMarkup (t ++ r) = true := by
  obtain ⟨u, rfl⟩ : ∃ u, t = '<' :: u := ⟨t.drop 1, eq_cons_of_beginsMarkup h⟩
  match u, h with
  | d :: [], h =>
    rw [beginsMarkup_lt] at h
    rw [List.cons_append, List.cons_append, beginsMarkup_lt]
    simp_all
  | d :: e :: u, h =>
    rw [beginsMarkup_lt] at h
    rw [List.cons_append, List.cons_append, beginsMarkup_lt]
    exact h

/-- What is cut off behind `<!`, of one of three kinds. -/
inductive Declares : Text → Lexeme → Text → Prop
  | comment {t u body b : Text} : Text.after? ['-'] t = some u →
      Text.breakOn? ['-', '-', '>'] u = some (body, b) → Declares ('-' :: t) (comment body) b
  | cdata {t u body b : Text} : Text.after? ['C', 'D', 'A', 'T', 'A', '['] t = some u →
      Text.breakOn? [']', ']', '>'] u = some (body, b) → Declares ('[' :: t) (cdata body) b
  | doctype {t content b : Text} : t.head?.any (·.toLower == 'd') = true →
      breakBalanced 0 t = some (content, b) →
      Text.sameFold (content.take doctypeKeyword.length) doctypeKeyword = true →
      Declares t (doctype content) b

theorem cutDeclaration_eq_ok {l : Lexeme} : cutDeclaration t = .ok (l, b) ↔ Declares t l b := by
  constructor
  · intro h
    unfold cutDeclaration at h
    split at h
    · split at h
      · next heq =>
        obtain ⟨u, hafter, hbreak⟩ := Option.bind_eq_some_iff.mp heq
        obtain ⟨rfl, rfl⟩ := Prod.mk.inj (Except.ok.inj h)
        exact .comment hafter hbreak
      · exact absurd h nofun
    · split at h
      · next heq =>
        obtain ⟨u, hafter, hbreak⟩ := Option.bind_eq_some_iff.mp heq
        obtain ⟨rfl, rfl⟩ := Prod.mk.inj (Except.ok.inj h)
        exact .cdata hafter hbreak
      · exact absurd h nofun
    · split at h
      · next hhead =>
        split at h
        · next hbreak =>
          split at h
          · next hkeyword =>
            obtain ⟨rfl, rfl⟩ := Prod.mk.inj (Except.ok.inj h)
            exact .doctype hhead hbreak hkeyword
          · exact absurd h nofun
        · exact absurd h nofun
      · exact absurd h nofun
  · rintro (⟨hafter, hbreak⟩ | ⟨hafter, hbreak⟩ | ⟨hhead, hbreak, hkeyword⟩)
    · rw [cutDeclaration, hafter, Option.bind_some, hbreak]
    · rw [cutDeclaration, hafter, Option.bind_some, hbreak]
    · unfold cutDeclaration
      split
      · rw [List.head?_cons] at hhead
        exact absurd hhead (by decide)
      · rw [List.head?_cons] at hhead
        exact absurd hhead (by decide)
      · rw [if_pos hhead, hbreak]
        dsimp only
        rw [if_pos hkeyword]

theorem Declares.append {l : Lexeme} (h : Declares t l b) (r : Text) :
    Declares (t ++ r) l (b ++ r) := by
  cases h with
  | comment hafter hbreak =>
    exact .comment (Text.after?_append hafter r) (Text.breakOn?_append hbreak r)
  | cdata hafter hbreak =>
    exact .cdata (Text.after?_append hafter r) (Text.breakOn?_append hbreak r)
  | doctype hhead hbreak hkeyword =>
    refine .doctype ?_ (breakBalanced_append hbreak r) hkeyword
    cases t with
    | nil => exact absurd hhead (by simp)
    | cons c t => exact hhead

theorem cutInstruction_eq_ok {l : Lexeme} : cutInstruction t = .ok (l, b) ↔
    ∃ body, t.head? ≠ some '>' ∧ Text.breakOn? ['?', '>'] t = some (body, b) ∧
      l = instruction body := by
  constructor
  · intro h
    unfold cutInstruction at h
    split at h
    · exact absurd h nofun
    · next hhead =>
      split at h
      · next body tail hbreak =>
        obtain ⟨rfl, rfl⟩ := Prod.mk.inj (Except.ok.inj h)
        exact ⟨body, hhead, hbreak, rfl⟩
      · exact absurd h nofun
  · rintro ⟨body, hhead, hbreak, rfl⟩
    rw [cutInstruction, if_neg hhead, hbreak]

theorem cutInstruction_append {l : Lexeme} (h : cutInstruction t = .ok (l, b)) (r : Text) :
    cutInstruction (t ++ r) = .ok (l, b ++ r) := by
  obtain ⟨body, hhead, hbreak, rfl⟩ := cutInstruction_eq_ok.mp h
  refine cutInstruction_eq_ok.mpr ⟨body, ?_, Text.breakOn?_append hbreak r, rfl⟩
  cases t with
  | nil => exact absurd hbreak (by simp [Text.breakOn?, Text.breakBefore])
  | cons c t => exact hhead

theorem cutTag_eq_ok {l : Lexeme} : cutTag t = .ok (l, b) ↔
    ∃ content, breakTag none t = some (content, b) ∧ l = tag content := by
  constructor
  · intro h
    unfold cutTag at h
    split at h
    · next content tail hbreak =>
      obtain ⟨rfl, rfl⟩ := Prod.mk.inj (Except.ok.inj h)
      exact ⟨content, hbreak, rfl⟩
    · exact absurd h nofun
  · rintro ⟨content, hbreak, rfl⟩
    rw [cutTag, hbreak]

theorem cutTag_append {l : Lexeme} (h : cutTag t = .ok (l, b)) (r : Text) :
    cutTag (t ++ r) = .ok (l, b ++ r) := by
  obtain ⟨content, hbreak, rfl⟩ := cutTag_eq_ok.mp h
  exact cutTag_eq_ok.mpr ⟨content, breakTag_append hbreak r, rfl⟩

/-- **What is cut off a text that begins with markup is cut off it in front of more text.** -/
theorem cut_append {l : Lexeme} (hbegins : beginsMarkup t = true) (h : cut t = .ok (l, b))
    (r : Text) : cut (t ++ r) = .ok (l, b ++ r) := by
  have hbegins' := beginsMarkup_append hbegins r
  unfold cut at h
  rw [if_pos hbegins] at h
  split at h
  · exact cutDeclaration_eq_ok.mpr ((cutDeclaration_eq_ok.mp h).append r)
  · exact cutInstruction_append h r
  · next hdecl hinstr =>
    rw [eq_cons_of_beginsMarkup hbegins] at hbegins' hdecl hinstr ⊢
    cases hu : t.drop 1 with
    | nil => rw [hu] at h; exact absurd h (by simp [cutTag, breakTag])
    | cons c u =>
      rw [hu] at h hdecl hinstr hbegins'
      rw [List.cons_append, List.cons_append] at hbegins' ⊢
      rw [cut_tag hbegins' (by rintro rfl; exact hdecl _ rfl) (by rintro rfl; exact hinstr _ rfl),
        ← List.cons_append]
      exact cutTag_append h r

/-- The lexeme is markup: neither a run of text nor the content of a raw element. -/
def IsMarkup : Lexeme → Prop
  | text _ => False
  | raw _ => False
  | _ => True

/-- **What begins with markup is cut off as markup.** -/
theorem isMarkup_of_cut {l : Lexeme} (hbegins : beginsMarkup t = true)
    (h : cut t = .ok (l, b)) : l.IsMarkup := by
  unfold cut at h
  rw [if_pos hbegins] at h
  split at h
  · cases cutDeclaration_eq_ok.mp h <;> trivial
  · obtain ⟨body, -, -, rfl⟩ := cutInstruction_eq_ok.mp h
    trivial
  · obtain ⟨content, -, rfl⟩ := cutTag_eq_ok.mp h
    trivial

/-- A lexeme that was cut off is markup, or the source begins with a run of text. -/
theorem isMarkup_or_of_cut {l : Lexeme} (h : cut t = .ok (l, b)) :
    (beginsMarkup t = true ∧ l.IsMarkup) ∨
      (beginsMarkup t = false ∧ l = text (Text.breakBefore beginsMarkup t).1 ∧
        b = (Text.breakBefore beginsMarkup t).2) := by
  cases hbegins : beginsMarkup t with
  | true => exact Or.inl ⟨rfl, isMarkup_of_cut hbegins h⟩
  | false =>
    rw [cut_text hbegins] at h
    obtain ⟨hl, hb⟩ := Prod.mk.inj (Except.ok.inj h)
    exact Or.inr ⟨rfl, hl.symm, hb.symm⟩

/-! ## 4. Runs of text -/

/-- No suffix of the text begins with markup. -/
def Plain (t : Text) : Prop := ∀ s, s <:+ t → beginsMarkup s = false

theorem plain_nil : Plain [] := fun s hs => by
  rw [List.suffix_nil.mp hs]
  rfl

theorem Plain.cons {c : Char} (hbegins : beginsMarkup (c :: t) = false) (ht : Plain t) :
    Plain (c :: t) := by
  intro s hs
  rcases List.suffix_cons_iff.mp hs with rfl | hs
  · exact hbegins
  · exact ht s hs

/-- What has no `<` does not matter in front of a run of text. -/
theorem Plain.append {u : Text} (ht : Plain t) (hu : '<' ∉ u) : Plain (u ++ t) := by
  induction u with
  | nil => exact ht
  | cons c u ih =>
    obtain ⟨hc, hu⟩ := not_or.mp (mt List.mem_cons.mpr hu)
    exact (ih hu).cons (beginsMarkup_of_ne (Ne.symm hc) _)

theorem plain_of_lt_not_mem (h : '<' ∉ t) : Plain t := by
  have hplain := plain_nil.append h
  rwa [List.append_nil] at hplain

/-- A run of text opens no markup together with a `<` behind it. -/
theorem beginsMarkup_append_of_head {s r : Text} (hs : s ≠ []) (h : beginsMarkup s = false)
    (hr : r = [] ∨ r.head? = some '<') : beginsMarkup (s ++ r) = false := by
  have hhead : r.head?.any Char.isAlpha = false := by
    rcases hr with rfl | hr
    · rfl
    · rw [hr]
      rfl
  match s, hs, h with
  | [c], _, h =>
    by_cases hc : c = '<'
    · subst hc
      cases r with
      | nil => exact h
      | cons d r =>
        obtain rfl : d = '<' := by simpa using hr
        rfl
    · exact beginsMarkup_of_ne hc _
  | c :: d :: s, _, h =>
    by_cases hc : c = '<'
    · subst hc
      rw [beginsMarkup_lt] at h
      rw [List.cons_append, List.cons_append, beginsMarkup_lt]
      cases s with
      | nil => simp_all
      | cons e s => exact h
    · exact beginsMarkup_of_ne hc _

/-- **A run of text is cut off as a whole** before what begins with `<`. -/
theorem breakBefore_plain {r : Text} (ht : Plain t) (hr : r = [] ∨ beginsMarkup r = true) :
    Text.breakBefore beginsMarkup (t ++ r) = (t, r) := by
  refine Text.breakBefore_append_eq (fun s hs hsuffix => ?_) hr
  refine beginsMarkup_append_of_head hs (ht s hsuffix) (hr.imp_right fun h => ?_)
  rw [eq_cons_of_beginsMarkup h]
  rfl

/-- A run of text is cut off whole, alone or before what begins with markup. -/
theorem cut_plain {r : Text} (ht : Plain t) (hr : r = [] ∨ beginsMarkup r = true) :
    t ≠ [] → cut (t ++ r) = .ok (text t, r) := by
  intro hne
  have hbegins : beginsMarkup (t ++ r) = false := by
    refine beginsMarkup_append_of_head hne (ht t (List.suffix_refl t)) (hr.imp_right fun h => ?_)
    rw [eq_cons_of_beginsMarkup h]
    rfl
  rw [cut_text hbegins, breakBefore_plain ht hr]

/-- What is cut off as a run of text opens no markup. -/
theorem plain_of_cut {r : Text} (h : cut (t ++ r) = .ok (text t, r)) :
    Plain t ∧ (r = [] ∨ beginsMarkup r = true) := by
  rcases isMarkup_or_of_cut h with ⟨-, hmarkup⟩ | ⟨-, htext, hrest⟩
  · exact hmarkup.elim
  · have hbreak : Text.breakBefore beginsMarkup (t ++ r) = (t, r) :=
      Prod.ext (Lexeme.text.inj htext).symm hrest.symm
    constructor
    · intro s hsuffix
      cases s with
      | nil => rfl
      | cons c s =>
        cases hbegins : beginsMarkup (c :: s) with
        | false => rfl
        | true =>
          have hpassed := Text.not_of_breakBefore_eq hbreak (List.cons_ne_nil c s) hsuffix
          rw [beginsMarkup_append hbegins r] at hpassed
          exact absurd hpassed nofun
    · have hholds := Text.breakBefore_holds beginsMarkup (t ++ r)
      rwa [hbreak] at hholds

/-! ## 5. End tags of raw elements -/

section RawName

variable {n name : Text}

theorem isAlpha_of_toLower {c : Char} (h : c.toLower.isAlpha = true) : c.isAlpha = true := by
  by_cases hupper : c.val ≥ 'A'.val ∧ c.val ≤ 'Z'.val
  · simpa [Char.isAlpha, Char.isUpper] using Or.inl hupper
  · rwa [Char.toLower, dif_neg hupper] at h

/-- The name of a raw element is made of letters, in whatever case it is written. -/
theorem isAlpha_of_isRawName (hraw : isRawName name = true) (hname : Text.sameFold n name = true) :
    n ≠ [] ∧ ∀ c ∈ n, c.isAlpha = true := by
  obtain ⟨r, hr, hsame⟩ := List.any_eq_true.mp hraw
  have hfold : Text.fold n = Text.fold r :=
    (beq_iff_eq.mp hname).trans (beq_iff_eq.mp hsame).symm
  have hletters : ∀ r ∈ rawNames, Text.fold r ≠ [] ∧ (Text.fold r).all Char.isAlpha = true := by
    decide
  obtain ⟨hne, hall⟩ := hletters r hr
  rw [List.all_eq_true] at hall
  rw [← hfold] at hne hall
  exact ⟨fun hnil => hne (by rw [hnil]; rfl),
    fun c hc => isAlpha_of_toLower (hall _ (List.mem_map_of_mem hc))⟩

/-- The name of a raw element begins with a letter, in whatever case it is written. -/
theorem head?_isAlpha_of_isRawName (hraw : isRawName name = true)
    (hname : Text.sameFold n name = true) : n.head?.any Char.isAlpha = true := by
  obtain ⟨hne, hall⟩ := isAlpha_of_isRawName hraw hname
  obtain ⟨c, more, rfl⟩ := List.exists_cons_of_ne_nil hne
  exact hall c List.mem_cons_self

end RawName

theorem exists_of_closesRaw {name t : Text} (h : closesRaw name t = true) :
    ∃ u, t = '<' :: '/' :: u ∧ Text.sameFold (u.take name.length) name = true ∧
      (u.drop name.length).head?.all endsRawName = true := by
  unfold closesRaw at h
  split at h
  · next u => exact ⟨u, rfl, Bool.and_eq_true_iff.mp h⟩
  · exact absurd h nofun

/-- Where the content of a raw element ends, markup begins. -/
theorem beginsMarkup_of_closesRaw {name u : Text} (hraw : isRawName name = true)
    (h : closesRaw name ('<' :: '/' :: u) = true) : beginsMarkup ('<' :: '/' :: u) = true := by
  obtain ⟨v, heq, hsame, -⟩ := exists_of_closesRaw h
  obtain rfl : u = v := (List.cons.inj (List.cons.inj heq).2).2
  have halpha := head?_isAlpha_of_isRawName hraw hsame
  rw [List.head?_take] at halpha
  split at halpha
  · exact absurd halpha Bool.false_ne_true
  · rw [beginsMarkup_lt, halpha]
    rfl

/-- The case of the name of a raw element does not matter. -/
theorem closesRaw_of_sameFold {m n : Text} (h : Text.sameFold m n = true) :
    closesRaw m = closesRaw n := by
  have hfold : Text.fold m = Text.fold n := beq_iff_eq.mp h
  funext t
  unfold closesRaw Text.sameFold
  rw [hfold, Text.length_of_sameFold h]

/-- A text that is long enough settles whether it begins with the end tag of a raw element. -/
theorem closesRaw_append {name u : Text} (hlength : name.length + 3 ≤ u.length) (r : Text) :
    closesRaw name (u ++ r) = closesRaw name u := by
  match u, hlength with
  | c :: d :: v, hlength =>
    rw [List.cons_append, List.cons_append]
    by_cases hopen : c = '<' ∧ d = '/'
    · obtain ⟨rfl, rfl⟩ := hopen
      have hv : name.length + 1 ≤ v.length := by simpa using hlength
      rw [closesRaw, closesRaw, List.take_append_of_le_length (by omega),
        List.drop_append_of_le_length (by omega)]
      cases hdrop : v.drop name.length with
      | nil =>
        have := List.drop_eq_nil_iff.mp hdrop
        omega
      | cons x v => rfl
    · have hnot : ∀ v : Text, closesRaw name (c :: d :: v) = false := by
        intro v
        unfold closesRaw
        split
        · next heq =>
          obtain ⟨hc, heq⟩ := List.cons.inj heq
          exact absurd ⟨hc, (List.cons.inj heq).1⟩ hopen
        · rfl
      rw [hnot, hnot]

/-- The end tag of a raw element, as it is printed, closes it. -/
theorem closesRaw_written (name r : Text) :
    closesRaw name ((tag ('/' :: name)).written ++ r) = true := by
  simp [written, closesRaw, Text.sameFold, endsRawName]

end Lexeme

end Stencil
