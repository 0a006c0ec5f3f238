/-
# Placeholders

A slot is written as a placeholder: `{`, a name, perhaps `!`, and `}`.  Where placeholders stand in
a body can be said without taking it apart: wherever a text of this form occurs (`Body.Stands`).
Taking a body apart from the left finds exactly these, though a brace that begins no placeholder is
passed as a character and the text behind it is looked at afresh.

The reason is that a placeholder has no `{` but its first character.  So none begins inside another
one (`Body.Stands.apart`), what begins behind a passed placeholder begins behind the whole of it
(`Placeholder.exists_of_append_eq`), and no decision that is taken on the way can hide one further
right.

A body is therefore parted into its placeholders and the gaps between them (`Body.exists_parting`),
and filling it puts an answer in the place of each placeholder and copies the gaps
(`Body.fill_exact`).  The resolver that gives the answers may remember what it was asked: it is
asked once for each placeholder, from left to right.
-/
import Stencil.Proofs.Component.Filling

namespace Stencil

/-! ## 1. One placeholder -/

/-- How a slot is written: with a name, and a `!` behind it if raw markup is meant. -/
@[ext] structure Placeholder where
  name : Text
  raw : Bool
  ne_nil : name ≠ []
  chars : ∀ c ∈ name, Slot.isNameChar c = true

namespace Placeholder

/-- What stands behind the name. -/
def closing (x : Placeholder) : Text := if x.raw then ['!', '}'] else ['}']

/-- The placeholder as it stands in a body. -/
def written (x : Placeholder) : Text := '{' :: (x.name ++ x.closing)

/-- The slot that it stands for. -/
def slot (x : Placeholder) : Slot := .ofName x.name x.raw

variable {x y : Placeholder} {a b rest u v : Text}

/-- No placeholder begins inside another one. -/
theorem brace_not_mem (x : Placeholder) : '{' ∉ x.name ++ x.closing := by
  rw [List.mem_append, not_or]
  constructor
  · exact fun hmem => absurd (x.chars _ hmem) (by decide)
  · rw [closing]
    split <;> decide

theorem close?_closing (x : Placeholder) (rest : Text) :
    Slot.close? (x.closing ++ rest) = some (x.raw, rest) := by
  rw [closing]
  cases x.raw <;> rfl

/-- What follows the name is no part of it. -/
theorem name_append (x : Placeholder) (rest : Text) :
    (x.name ++ x.closing ++ rest).takeWhile Slot.isNameChar = x.name ∧
      (x.name ++ x.closing ++ rest).dropWhile Slot.isNameChar = x.closing ++ rest := by
  have hstop : (x.closing ++ rest).head?.all fun c => !Slot.isNameChar c := by
    rw [closing]
    cases x.raw <;> rfl
  rw [List.append_assoc]
  exact Text.takeWhile_append_eq x.chars hstop

/-- A placeholder is read as the slot that it stands for. -/
theorem read?_append (x : Placeholder) (rest : Text) :
    Slot.read? (x.name ++ x.closing ++ rest) = some (x.slot, rest) := by
  obtain ⟨htake, hdrop⟩ := x.name_append rest
  rw [Slot.read?_eq, htake, hdrop, if_neg x.ne_nil, x.close?_closing]
  rfl

/-- There is one way to read a placeholder. -/
theorem unique (h : x.written ++ u = y.written ++ v) : x = y ∧ u = v := by
  have htail : x.name ++ x.closing ++ u = y.name ++ y.closing ++ v := (List.cons.inj h).2
  obtain ⟨htake, hdrop⟩ := x.name_append u
  obtain ⟨htake', hdrop'⟩ := y.name_append v
  rw [htail] at htake hdrop
  have hname : x.name = y.name := htake.symm.trans htake'
  have hclose := congrArg Slot.close? (hdrop.symm.trans hdrop')
  rw [close?_closing, close?_closing] at hclose
  obtain ⟨hraw, hrest⟩ := Prod.mk.inj (Option.some.inj hclose)
  exact ⟨Placeholder.ext hname hraw, hrest⟩

/-- **What stands behind a text without `{` stands behind all of it.** -/
theorem exists_of_append_eq (hu : '{' ∉ u) (h : a ++ x.written ++ b = u ++ rest) :
    ∃ a', a = u ++ a' ∧ a' ++ x.written ++ b = rest := by
  rw [List.append_assoc] at h
  rcases List.append_eq_append_iff.mp h with ⟨d, hd, hrest⟩ | ⟨d, hd, hrest⟩
  · cases d with
    | nil =>
      rw [List.append_nil] at hd
      refine ⟨[], by rw [hd, List.append_nil], ?_⟩
      rw [List.nil_append]
      exact hrest
    | cons c d =>
      -- then the placeholder would begin in the text
      obtain rfl : c = '{' := (List.cons.inj hrest).1.symm
      refine absurd ?_ hu
      rw [hd]
      exact List.mem_append_right a List.mem_cons_self
  · exact ⟨d, hd, by rw [List.append_assoc, hrest]⟩

end Placeholder

/-- **What is read behind a `{` is a placeholder.** -/
theorem Slot.exists_of_read? {t rest : Text} {s : Slot} (h : read? t = some (s, rest)) :
    ∃ x : Placeholder, t = x.name ++ x.closing ++ rest ∧ s = x.slot := by
  rw [read?_eq] at h
  split at h
  · exact absurd h nofun
  · next hne =>
    obtain ⟨⟨raw, rest'⟩, hclose, heq⟩ := Option.map_eq_some_iff.mp h
    obtain ⟨rfl, rfl⟩ := Prod.mk.inj heq
    have hchars : ∀ c ∈ t.takeWhile isNameChar, isNameChar c = true :=
      fun c hc => List.mem_takeWhile_imp hc
    refine ⟨⟨t.takeWhile isNameChar, raw, hne, hchars⟩, ?_, rfl⟩
    have hall := (List.takeWhile_append_dropWhile (p := isNameChar) (l := t)).symm
    rw [List.append_assoc]
    refine hall.trans (congrArg _ ?_)
    unfold close? at hclose
    split at hclose
    · next hbehind =>
      obtain ⟨rfl, rfl⟩ := Prod.mk.inj (Option.some.inj hclose)
      rw [hbehind]
      rfl
    · next hbehind =>
      obtain ⟨rfl, rfl⟩ := Prod.mk.inj (Option.some.inj hclose)
      rw [hbehind]
      rfl
    · exact absurd hclose nofun

/-- The slot, if the piece is one. -/
def BodyPiece.slot? : BodyPiece → Option Slot
  | char _ => none
  | slot s => some s

namespace Body

/-! ## 2. Where placeholders stand -/

/-- `Stands t a x b`: the placeholder `x` stands in `t`, with `a` in front of it and `b` behind. -/
def Stands (t a : Text) (x : Placeholder) (b : Text) : Prop := a ++ x.written ++ b = t

instance (t a : Text) (x : Placeholder) (b : Text) : Decidable (Stands t a x b) :=
  inferInstanceAs (Decidable (a ++ x.written ++ b = t))

variable {t a a' b b' : Text} {x x' : Placeholder}

/-- **Placeholders do not overlap**: of two of them one stands behind the whole of the other. -/
theorem Stands.apart (h : Stands t a x b) (h' : Stands t a' x' b') (hle : a.length ≤ a'.length) :
    (a = a' ∧ x = x' ∧ b = b') ∨ ∃ gap, a' = a ++ x.written ++ gap := by
  have hall : a ++ (x.written ++ b) = a' ++ (x'.written ++ b') := by
    rw [← List.append_assoc, ← List.append_assoc]
    exact Eq.trans h (Eq.symm h')
  obtain ⟨d, rfl⟩ : a <+: a' :=
    List.prefix_of_prefix_length_le ⟨_, hall⟩ ⟨_, rfl⟩ hle
  rw [List.append_assoc] at hall
  have hbehind := List.append_cancel_left hall
  cases d with
  | nil =>
    obtain ⟨rfl, rfl⟩ := Placeholder.unique hbehind
    exact Or.inl ⟨(List.append_nil a).symm, rfl, rfl⟩
  | cons c d =>
    obtain ⟨rfl, htail⟩ := List.cons.inj hbehind
    have hrest : d ++ x'.written ++ b' = x.name ++ x.closing ++ b := by
      rw [List.append_assoc]
      exact htail.symm
    obtain ⟨gap, rfl, -⟩ := Placeholder.exists_of_append_eq x.brace_not_mem hrest
    exact Or.inr ⟨gap, by simp [Placeholder.written]⟩

/-! ## 3. Parted bodies -/

/-- A parted body: placeholders, each with the gap in front of it, and what is behind the last. -/
structure Parting where
  parts : List (Text × Placeholder)
  last : Text

namespace Parting

/-- The body with the given answers in the places of its placeholders. -/
def filled (p : Parting) (answers : List Text) : Text :=
  (p.parts.zipWith (fun part answer => part.1 ++ answer) answers).flatten ++ p.last

/-- The body that was parted. -/
def text (p : Parting) : Text := p.filled (p.parts.map fun part => part.2.written)

/-- The slots that the placeholders stand for, from left to right. -/
def slots (p : Parting) : List Slot := p.parts.map fun part => part.2.slot

/-- The pieces that the body is taken apart into. -/
def pieces (p : Parting) : List BodyPiece :=
  p.parts.flatMap (fun part => part.1.map .char ++ [.slot part.2.slot]) ++ p.last.map .char

/-- The parting has the placeholder, with `a` in front of it and `b` behind. -/
def Has (p : Parting) (a : Text) (x : Placeholder) (b : Text) : Prop :=
  ∃ before gap after, p.parts = before ++ (gap, x) :: after ∧
    a = (Parting.mk before gap).text ∧ b = (Parting.mk after p.last).text

/-- A character in front of all. -/
def push (c : Char) : Parting → Parting
  | ⟨[], last⟩ => ⟨[], c :: last⟩
  | ⟨(gap, x) :: rest, last⟩ => ⟨(c :: gap, x) :: rest, last⟩

/-- A placeholder in front of all. -/
def put (x : Placeholder) (p : Parting) : Parting := ⟨([], x) :: p.parts, p.last⟩

variable {p : Parting} {last gap answer : Text} {rest : List (Text × Placeholder)}
  {answers : List Text}

@[simp] theorem filled_nil (last : Text) (answers : List Text) :
    (Parting.mk [] last).filled answers = last := by
  simp [filled]

@[simp] theorem filled_cons (gap : Text) (x : Placeholder) (rest : List (Text × Placeholder))
    (last answer : Text) (answers : List Text) :
    (Parting.mk ((gap, x) :: rest) last).filled (answer :: answers) =
      gap ++ answer ++ (Parting.mk rest last).filled answers := by
  simp [filled]

@[simp] theorem text_nil (last : Text) : (Parting.mk [] last).text = last := filled_nil last _

@[simp] theorem text_cons (gap : Text) (x : Placeholder) (rest : List (Text × Placeholder))
    (last : Text) : (Parting.mk ((gap, x) :: rest) last).text =
      gap ++ x.written ++ (Parting.mk rest last).text := filled_cons ..

theorem text_append (before : List (Text × Placeholder)) (gap : Text) (x : Placeholder)
    (after : List (Text × Placeholder)) (last : Text) :
    (Parting.mk (before ++ (gap, x) :: after) last).text =
      (Parting.mk before gap).text ++ x.written ++ (Parting.mk after last).text := by
  induction before with
  | nil => simp
  | cons part before ih =>
    obtain ⟨gap', y⟩ := part
    rw [List.cons_append, text_cons, text_cons, ih]
    simp only [List.append_assoc]

/-- What a parting has stands in the body. -/
theorem Has.stands (h : p.Has a x b) : Stands p.text a x b := by
  obtain ⟨parts, last⟩ := p
  obtain ⟨before, gap, after, rfl, rfl, rfl⟩ := h
  exact (text_append before gap x after last).symm

theorem text_push (c : Char) (p : Parting) : (p.push c).text = c :: p.text := by
  obtain ⟨_ | ⟨⟨gap, x⟩, rest⟩, last⟩ := p
  · rfl
  · simp [push]

theorem pieces_push (c : Char) (p : Parting) : (p.push c).pieces = .char c :: p.pieces := by
  obtain ⟨_ | ⟨⟨gap, x⟩, rest⟩, last⟩ := p
  · rfl
  · simp [push, pieces]

theorem Has.push (h : p.Has a x b) (c : Char) : (p.push c).Has (c :: a) x b := by
  obtain ⟨parts, last⟩ := p
  obtain ⟨before, gap, after, rfl, rfl, rfl⟩ := h
  cases before with
  | nil => exact ⟨[], c :: gap, after, rfl, by simp, rfl⟩
  | cons part before =>
    obtain ⟨gap', y⟩ := part
    exact ⟨(c :: gap', y) :: before, gap, after, rfl, by simp, rfl⟩

theorem text_put (x : Placeholder) (p : Parting) : (p.put x).text = x.written ++ p.text :=
  text_cons [] x p.parts p.last

theorem pieces_put (x : Placeholder) (p : Parting) :
    (p.put x).pieces = .slot x.slot :: p.pieces := by
  simp [put, pieces]

theorem has_put (x : Placeholder) (p : Parting) : (p.put x).Has [] x p.text :=
  ⟨[], [], p.parts, rfl, rfl, rfl⟩

theorem Has.put (h : p.Has a x b) (y : Placeholder) : (p.put y).Has (y.written ++ a) x b := by
  obtain ⟨before, gap, after, hparts, rfl, rfl⟩ := h
  refine ⟨([], y) :: before, gap, after, ?_, by simp, rfl⟩
  rw [Parting.put, hparts, List.cons_append]

end Parting

/-- `p` parts the text: its pieces are those of the text, and it has all placeholders in it. -/
structure Parts (p : Parting) (t : Text) : Prop where
  text_eq : p.text = t
  pieces_eq : p.pieces = pieces t
  has_of_stands : ∀ a x b, Stands t a x b → p.Has a x b

variable {p : Parting} {c : Char}

/-- A character that begins no placeholder goes into the first gap. -/
theorem Parts.push (h : Parts p t) (hpieces : pieces (c :: t) = .char c :: pieces t)
    (hnone : ∀ x b, ¬ Stands (c :: t) [] x b) : Parts (p.push c) (c :: t) where
  text_eq := by rw [Parting.text_push, h.text_eq]
  pieces_eq := by rw [Parting.pieces_push, h.pieces_eq, hpieces]
  has_of_stands a x b hstands := by
    cases a with
    | nil => exact absurd hstands (hnone x b)
    | cons d a =>
      obtain ⟨rfl, htail⟩ := List.cons.inj hstands
      exact (h.has_of_stands a x b htail).push d

/-- A placeholder goes in front of what is behind it. -/
theorem Parts.put (h : Parts p t) (y : Placeholder) : Parts (p.put y) (y.written ++ t) where
  text_eq := by rw [Parting.text_put, h.text_eq]
  pieces_eq := by
    rw [Parting.pieces_put, h.pieces_eq]
    exact (pieces_of_some (y.read?_append t)).symm
  has_of_stands a x b hstands := by
    cases a with
    | nil =>
      obtain ⟨rfl, rfl⟩ := Placeholder.unique (hstands : x.written ++ b = y.written ++ t)
      have hhas := Parting.has_put x p
      rwa [h.text_eq] at hhas
    | cons d a =>
      obtain ⟨rfl, htail⟩ := List.cons.inj hstands
      obtain ⟨a', rfl, hrest⟩ := Placeholder.exists_of_append_eq y.brace_not_mem htail
      exact (h.has_of_stands a' x b hrest).put y

/-- **Every body can be parted**: taking it apart from the left finds all placeholders in it. -/
theorem exists_parting (t : Text) : ∃ p, Parts p t := by
  match t with
  | [] =>
    refine ⟨⟨[], []⟩, rfl, pieces_nil.symm, fun a x b hstands => ?_⟩
    have hwritten : x.written = [] :=
      (List.append_eq_nil_iff.mp (List.append_eq_nil_iff.mp hstands).1).2
    exact absurd hwritten nofun
  | c :: t =>
    by_cases hc : c = '{'
    · subst hc
      cases hread : Slot.read? t with
      | some r =>
        obtain ⟨s, rest⟩ := r
        have hshorter := Slot.length_of_read? hread
        obtain ⟨y, hy, -⟩ := Slot.exists_of_read? hread
        obtain ⟨p, hp⟩ := exists_parting rest
        rw [hy]
        exact ⟨p.put y, hp.put y⟩
      | none =>
        obtain ⟨p, hp⟩ := exists_parting t
        refine ⟨p.push '{', hp.push (pieces_of_none hread) fun x b hstands => ?_⟩
        have htail : x.name ++ x.closing ++ b = t := (List.cons.inj hstands).2
        have hsome := x.read?_append b
        rw [htail, hread] at hsome
        cases hsome
    · obtain ⟨p, hp⟩ := exists_parting t
      refine ⟨p.push c, hp.push (pieces_cons_of_ne hc t) fun x b hstands => ?_⟩
      exact hc (List.cons.inj hstands).1.symm
termination_by t.length

/-! ## 4. Filling -/

/-- The answers to slots, one after the other, of a resolver that has a memory. -/
def answers {σ : Type} (ask : σ → Slot → Text × σ) (memory : σ) : List Slot → List Text × σ
  | [] => ([], memory)
  | s :: rest =>
    let answer := ask memory s
    let others := answers ask answer.2 rest
    (answer.1 :: others.1, others.2)

/-- Fills pieces, one after the other, with the answers of a resolver that has a memory. -/
def fillAsking {σ : Type} (ask : σ → Slot → Text × σ) (memory : σ) : List BodyPiece → Text × σ
  | [] => ([], memory)
  | .char c :: rest =>
    let others := fillAsking ask memory rest
    (c :: others.1, others.2)
  | .slot s :: rest =>
    let answer := ask memory s
    let others := fillAsking ask answer.2 rest
    (answer.1 ++ others.1, others.2)

section Asking

variable {σ : Type} (ask : σ → Slot → Text × σ)

/-- A resolver that remembers nothing fills a body as `fill` does. -/
theorem fillAsking_of_forgetful (resolve : Slot → Text) (memory : σ) (t : Text) :
    fillAsking (fun memory s => (resolve s, memory)) memory (Body.pieces t) =
      (fill resolve t, memory) := by
  rw [fill]
  induction pieces t with
  | nil => rfl
  | cons piece rest ih =>
    cases piece <;> simp [fillAsking, fillPiece, ih]

theorem fillAsking_chars (memory : σ) (gap : Text) (rest : List BodyPiece) :
    fillAsking ask memory (gap.map .char ++ rest) =
      (gap ++ (fillAsking ask memory rest).1, (fillAsking ask memory rest).2) := by
  induction gap with
  | nil => rfl
  | cons c gap ih => rw [List.map_cons, List.cons_append, fillAsking, ih, List.cons_append]

/-- **A parted body is filled with the answers to its slots**, asked for from left to right. -/
theorem fillAsking_pieces (p : Parting) (memory : σ) :
    fillAsking ask memory p.pieces =
      (p.filled (answers ask memory p.slots).1, (answers ask memory p.slots).2) := by
  obtain ⟨parts, last⟩ := p
  induction parts generalizing memory with
  | nil =>
    have hlast := fillAsking_chars ask memory last []
    rw [List.append_nil, fillAsking, List.append_nil] at hlast
    rw [Parting.filled_nil]
    exact hlast
  | cons part rest ih =>
    obtain ⟨gap, x⟩ := part
    have hpieces : (Parting.mk ((gap, x) :: rest) last).pieces =
        gap.map .char ++ .slot x.slot :: (Parting.mk rest last).pieces := by
      simp [Parting.pieces]
    have hslots : (Parting.mk ((gap, x) :: rest) last).slots =
        x.slot :: (Parting.mk rest last).slots := rfl
    rw [hpieces, fillAsking_chars, fillAsking, ih, hslots, answers, Parting.filled_cons,
      List.append_assoc]

end Asking

/-- A resolver that remembers nothing gives each slot its own answer. -/
theorem answers_of_forgetful {σ : Type} (resolve : Slot → Text) (memory : σ) (ss : List Slot) :
    answers (fun memory s => (resolve s, memory)) memory ss = (ss.map resolve, memory) := by
  induction ss with
  | nil => rfl
  | cons s ss ih => rw [answers, ih, List.map_cons]

/-- The slots of a body are those that its placeholders stand for. -/
theorem Parts.slots_eq (h : Parts p t) : slots t = p.slots := by
  have hslots : slots t = (pieces t).filterMap BodyPiece.slot? := rfl
  have hgap : ∀ gap : Text, (gap.map BodyPiece.char).filterMap BodyPiece.slot? = [] :=
    fun gap => by simp [BodyPiece.slot?]
  rw [hslots, ← h.pieces_eq, Parting.pieces, List.filterMap_append, hgap, List.append_nil,
    Parting.slots]
  induction p.parts with
  | nil => rfl
  | cons part rest ih =>
    rw [List.flatMap_cons, List.append_assoc, List.filterMap_append, hgap, List.map_cons, ← ih]
    rfl

theorem Parts.fill_eq (h : Parts p t) (resolve : Slot → Text) :
    fill resolve t = p.filled (p.slots.map resolve) := by
  have hasked := fillAsking_of_forgetful resolve () t
  rw [← h.pieces_eq, fillAsking_pieces, answers_of_forgetful] at hasked
  exact (Prod.mk.inj hasked).1.symm

/-- A body without slots is filled as it is. -/
theorem fill_of_slots_eq_nil {resolve : Slot → Text} (h : slots t = []) : fill resolve t = t := by
  obtain ⟨⟨parts, last⟩, hp⟩ := exists_parting t
  rw [hp.slots_eq, Parting.slots, List.map_eq_nil_iff] at h
  obtain rfl : parts = [] := h
  rw [hp.fill_eq, ← hp.text_eq]
  rfl

/-- **Filling replaces the placeholders and nothing else.**  Placeholders do not overlap, and every
body is parted into exactly the placeholders that stand in it and the gaps between them.  Filling it
copies the gaps and puts an answer in the place of each placeholder, which is not looked at again.
A resolver that has a memory is asked once for each placeholder, from left to right, and for what is
inside the usage if the name is that of the children, and otherwise for the value of the name; one
that remembers nothing fills the body as `fill` does. -/
theorem fill_exact (t : Text) :
    (∀ a x b a' x' b', Stands t a x b → Stands t a' x' b' → a.length ≤ a'.length →
      (a = a' ∧ x = x' ∧ b = b') ∨ ∃ gap, a' = a ++ x.written ++ gap) ∧
    ∃ p : Parting, p.text = t ∧ (∀ a x b, p.Has a x b ↔ Stands t a x b) ∧
      slots t = p.parts.map (fun part =>
        if part.2.name = Slot.childrenName then .children
        else .value part.2.name part.2.raw) ∧
      (∀ (σ : Type) (ask : σ → Slot → Text × σ) (memory : σ),
        fillAsking ask memory (pieces t) =
          (p.filled (answers ask memory (slots t)).1, (answers ask memory (slots t)).2)) ∧
      ∀ resolve : Slot → Text, fill resolve t = p.filled ((slots t).map resolve) ∧
        ∀ (σ : Type) (memory : σ),
          fillAsking (fun memory s => (resolve s, memory)) memory (pieces t) =
            (fill resolve t, memory) := by
  refine ⟨fun a x b a' x' b' h h' => h.apart h', ?_⟩
  obtain ⟨p, hp⟩ := exists_parting t
  refine ⟨p, hp.text_eq, fun a x b => ⟨fun hhas => ?_, hp.has_of_stands a x b⟩, hp.slots_eq,
    fun σ ask memory => ?_, fun resolve => ⟨?_, fun σ memory => ?_⟩⟩
  · rw [← hp.text_eq]
    exact hhas.stands
  · rw [← hp.pieces_eq, fillAsking_pieces, hp.slots_eq]
  · rw [hp.fill_eq, hp.slots_eq]
  · exact fillAsking_of_forgetful resolve memory t

/-- The braces in front and behind begin no placeholder, and are copied. -/
theorem fill_exact_braces :
    let t := ['{', '{', 'x', '}', '!', '{', 'x', '!', '}', '{', 'x']
    let x : Placeholder := ⟨['x'], false, by simp, List.forall_mem_singleton.mpr (by decide)⟩
    let y : Placeholder := ⟨['x'], true, by simp, List.forall_mem_singleton.mpr (by decide)⟩
    Stands t ['{'] x ['!', '{', 'x', '!', '}', '{', 'x'] ∧
      Stands t ['{', '{', 'x', '}', '!'] y ['{', 'x'] ∧
      (∃ gap, ['{', '{', 'x', '}', '!'] = ['{'] ++ x.written ++ gap) ∧
      ∃ p : Parting, p.text = t ∧ p.Has ['{'] x ['!', '{', 'x', '!', '}', '{', 'x'] ∧
        p.Has ['{', '{', 'x', '}', '!'] y ['{', 'x'] ∧
        p.filled [['1'], ['{', 'x', '}']] =
          ['{', '1', '!', '{', 'x', '}', '{', 'x'] := by
  intro t x y
  have hx : Stands t ['{'] x ['!', '{', 'x', '!', '}', '{', 'x'] := by
    decide +kernel
  have hy : Stands t ['{', '{', 'x', '}', '!'] y ['{', 'x'] := by
    decide +kernel
  obtain ⟨hapart, p, htext, hhas, -, -, hfill⟩ := fill_exact t
  refine ⟨hx, hy, ?_, p, htext, (hhas _ _ _).mpr hx, (hhas _ _ _).mpr hy, ?_⟩
  · exact (hapart _ _ _ _ _ _ hx hy (by decide)).resolve_left fun h => absurd h.1 (by decide)
  · have hslots : slots t = [.value ['x'] false, .value ['x'] true] := by decide +kernel
    have hpieces := (hfill fun s => if s = .value ['x'] false then ['1'] else ['{', 'x', '}']).1
    rw [hslots] at hpieces
    refine hpieces.symm.trans ?_
    decide +kernel

end Body

end Stencil
