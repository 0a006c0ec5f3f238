/-
# Spellings of a name

One component may be written in many ways: its words in any case, and any characters but letters and
digits in front of them, between them and behind them.  A `Spelling` is a name taken apart in this
way, and its words are those of its text (`words_text`), so that all spellings with the same words,
the case of letters aside, have one key (`key_text`).

There are two ways to capitalise, and they meet in keys.  A key has no other character than letters
and digits, so that it is one word, or none, and a word keeps its inner capitals
(`key_of_isAlphanum`).  As a key does not begin with a small letter either, it is its own key.
-/
import Stencil.Proofs.Component.Name

namespace Stencil.ComponentName

/-! ## 1. The words of a text -/

/-- The text has no letters and digits. -/
def Gap (t : Text) : Prop := ∀ c ∈ t, c.isAlphanum = false

/-- The text is a word: not empty, and with letters and digits only. -/
def Word (t : Text) : Prop := t ≠ [] ∧ ∀ c ∈ t, c.isAlphanum = true

variable {gap word u t : Text}

theorem words_cons_of_not {c : Char} (hc : c.isAlphanum = false) (t : Text) :
    words (c :: t) = words t := by
  rw [words, runs, hc, if_neg Bool.false_ne_true]
  rfl

/-- A gap in front of a text adds no word. -/
theorem words_gap_append (hgap : Gap gap) (t : Text) : words (gap ++ t) = words t := by
  induction gap with
  | nil => rfl
  | cons c gap ih =>
    obtain ⟨hc, hgap⟩ := List.forall_mem_cons.mp hgap
    rw [List.cons_append, words_cons_of_not hc, ih hgap]

/-- Behind letters and digits the first run goes on. -/
theorem runs_append (hu : ∀ c ∈ u, c.isAlphanum = true) (t : Text) :
    runs (u ++ t) = (runs t).modifyHead (u ++ ·) := by
  induction u with
  | nil => exact (congrFun List.modifyHead_id (runs t)).symm
  | cons c u ih =>
    obtain ⟨hc, hu⟩ := List.forall_mem_cons.mp hu
    rw [List.cons_append, runs, if_pos hc, ih hu, List.modifyHead_modifyHead]
    rfl

/-- A word is read up to the gap behind it. -/
theorem words_word_append (hword : Word word) (ht : t.head?.all fun c => !c.isAlphanum) :
    words (word ++ t) = word :: words t := by
  obtain ⟨rest, hruns⟩ : ∃ rest, runs t = [] :: rest := by
    cases t with
    | nil => exact ⟨[], rfl⟩
    | cons c t =>
      have hc : c.isAlphanum = false := by simpa using ht
      exact ⟨runs t, by rw [runs, hc, if_neg Bool.false_ne_true]⟩
  rw [words, words, runs_append hword.2, hruns, List.modifyHead_cons, List.append_nil,
    List.filter_cons_of_pos (by simpa using hword.1), List.filter_cons_of_neg (by simp)]

theorem words_of_word (hword : Word word) : words word = [word] := by
  have hwords := words_word_append hword (t := []) rfl
  rwa [List.append_nil] at hwords

theorem runs_ne_nil (t : Text) : runs t ≠ [] := by
  induction t with
  | nil => exact List.cons_ne_nil _ _
  | cons c t ih =>
    rw [runs]
    split
    · exact fun hnil => ih (List.modifyHead_eq_nil_iff.mp hnil)
    · exact List.cons_ne_nil _ _

/-- **The words of a text have its letters and digits**, in their order. -/
theorem flatten_words (t : Text) : (words t).flatten = t.filter Char.isAlphanum := by
  have hruns : (runs t).flatten = t.filter Char.isAlphanum := by
    induction t with
    | nil => rfl
    | cons c t ih =>
      cases hc : c.isAlphanum with
      | false =>
        rw [runs, hc, if_neg Bool.false_ne_true, List.filter_cons_of_neg (by simp [hc])]
        exact ih
      | true =>
        rw [List.filter_cons_of_pos hc, ← ih, runs, if_pos hc]
        cases hcut : runs t with
        | nil => exact absurd hcut (runs_ne_nil t)
        | cons first rest => rfl
  have hne : words t = (runs t).filter fun run => decide (run ≠ []) :=
    List.filter_congr fun run _ => by cases run <;> rfl
  rw [hne, List.flatten_filter_ne_nil, hruns]

/-! ## 2. Keys -/

/-- A text of letters and digits keeps its inner capitals. -/
theorem key_of_isAlphanum (ht : ∀ c ∈ t, c.isAlphanum = true) : key t = withCapital t := by
  cases t with
  | nil => rfl
  | cons c t => rw [key, words_of_word ⟨List.cons_ne_nil c t, ht⟩]

/-- **A key is its own key.** -/
theorem key_key (name : Text) : key (key name) = key name := by
  rw [key_of_isAlphanum fun c hc => isAlphanum_of_mem_key hc]
  cases hkey : key name with
  | nil => rfl
  | cons c rest =>
    have hc : c.isLower = false := isLower_head?_key (congrArg List.head? hkey)
    rw [withCapital, Char.toUpper_eq_of_not_isLower (by rw [hc]; exact Bool.false_ne_true)]

/-- **A name has no key exactly if it has no letters and digits.** -/
theorem key_eq_nil_iff (name : Text) : key name = [] ↔ Gap name := by
  constructor
  · intro hkey
    obtain ⟨capital, hcapital, heq⟩ := exists_key_eq name
    have hwords : words name = [] := by
      refine List.eq_nil_iff_forall_not_mem.mpr fun word hword => (of_mem_words hword).1 ?_
      have hnil := List.flatMap_eq_nil_iff.mp (heq.symm.trans hkey) word hword
      cases word with
      | nil => rfl
      | cons c word =>
        rcases List.mem_pair.mp hcapital with rfl | rfl
        · exact absurd hnil (List.cons_ne_nil _ _)
        · exact absurd hnil (List.cons_ne_nil _ _)
    have hfilter := flatten_words name
    rw [hwords, List.flatten_nil] at hfilter
    exact fun c hc => by simpa using List.filter_eq_nil_iff.mp hfilter.symm c hc
  · intro hgap
    have hwords := words_gap_append hgap []
    rw [List.append_nil] at hwords
    rw [key, hwords]
    rfl

/-- The case of letters does not matter to a word that is capitalised. -/
theorem capitalised_of_sameFold (h : Text.sameFold u t = true) : capitalised u = capitalised t := by
  have hfold : u.map Char.toLower = t.map Char.toLower := beq_iff_eq.mp h
  cases u with
  | nil =>
    cases t with
    | nil => rfl
    | cons d t => exact absurd hfold nofun
  | cons c u =>
    cases t with
    | nil => exact absurd hfold nofun
    | cons d t =>
      obtain ⟨hfirst, hrest⟩ := List.cons.inj hfold
      have hcapital := congrArg Char.toUpper hfirst
      rw [Char.toUpper_toLower_eq_toUpper, Char.toUpper_toLower_eq_toUpper] at hcapital
      rw [capitalised, capitalised, hcapital, hrest]

/-! ## 3. Spellings -/

/-- A name of words, with something between each two of them. -/
structure Spelling where
  before : Text
  first : Text
  /-- The other words, each with what is in front of it. -/
  more : List (Text × Text)
  behind : Text
  gap_before : Gap before
  word_first : Word first
  gap_more : ∀ part ∈ more, part.1 ≠ [] ∧ Gap part.1
  word_more : ∀ part ∈ more, Word part.2
  gap_behind : Gap behind

namespace Spelling

/-- The name. -/
def text (s : Spelling) : Text :=
  s.before ++ (s.first ++ (s.more.flatMap (fun part => part.1 ++ part.2) ++ s.behind))

/-- Its words as they are spelled. -/
def spelled (s : Spelling) : List Text := s.first :: s.more.map Prod.snd

/-- **The words of a spelling are those that it was made of.** -/
theorem words_text (s : Spelling) : words s.text = s.spelled := by
  obtain ⟨before, first, more, behind, hbefore, hfirst, hgaps, hwords, hbehind⟩ := s
  have hstops : ∀ gap : Text, Gap gap → gap.head?.all fun c => !c.isAlphanum := by
    intro gap hgap
    cases gap with
    | nil => rfl
    | cons c gap => simpa using hgap c List.mem_cons_self
  have hmore : words (more.flatMap (fun part => part.1 ++ part.2) ++ behind) = more.map Prod.snd ∧
      (more.flatMap (fun part => part.1 ++ part.2) ++ behind).head?.all
        fun c => !c.isAlphanum := by
    induction more with
    | nil =>
      have hnone := words_gap_append hbehind []
      rw [List.append_nil] at hnone
      exact ⟨hnone, hstops behind hbehind⟩
    | cons part more ih =>
      obtain ⟨⟨hne, hgap⟩, hgaps⟩ := List.forall_mem_cons.mp hgaps
      obtain ⟨hword, hwords⟩ := List.forall_mem_cons.mp hwords
      obtain ⟨hrest, hhead⟩ := ih hgaps hwords
      rw [List.flatMap_cons, List.append_assoc, List.append_assoc]
      constructor
      · rw [words_gap_append hgap, words_word_append hword hhead, hrest, List.map_cons]
      · rw [List.head?_append_of_ne_nil _ hne]
        exact hstops part.1 hgap
  rw [text, words_gap_append hbefore, words_word_append hfirst hmore.2, hmore.1, spelled]

/-- **The key of several words is the words, capitalised**, whatever is around them. -/
theorem key_text (s : Spelling) (hmore : s.more ≠ []) :
    key s.text = s.spelled.flatMap capitalised := by
  rw [key, s.words_text, spelled]
  cases hparts : s.more with
  | nil => exact absurd hparts hmore
  | cons part more => rfl

end Spelling

theorem flatMap_capitalised_of_forall₂ {ws ws' : List Text}
    (h : List.Forall₂ (fun w' w => Text.sameFold w' w = true) ws' ws) :
    ws'.flatMap capitalised = ws.flatMap capitalised := by
  induction h with
  | nil => rfl
  | cons hword _ ih =>
    rw [List.flatMap_cons, List.flatMap_cons, capitalised_of_sameFold hword, ih]

/-- **Keys are canonical.**  The key of any text has letters and digits only, is empty exactly if
the text has none, and is its own key.  All spellings of several words, the words in any case, have
one key: that of the words put together after each was capitalised, which is its own key. -/
theorem key_canonical :
    (∀ x : Text, (∀ c ∈ key x, c.isAlphanum = true) ∧
      (key x = [] ↔ ∀ c ∈ x, c.isAlphanum = false) ∧ key (key x) = key x) ∧
    ∀ ws : List Text, 2 ≤ ws.length → ∀ s : Spelling,
      List.Forall₂ (fun w' w => Text.sameFold w' w = true) s.spelled ws →
        key s.text = key (ws.flatMap capitalised) ∧ key s.text = ws.flatMap capitalised := by
  refine ⟨fun x => ⟨fun c hc => isAlphanum_of_mem_key hc, key_eq_nil_iff x, key_key x⟩, ?_⟩
  intro ws hlength s hspelled
  have hmore : s.more ≠ [] := by
    intro hnil
    have hone : s.spelled.length = ws.length := hspelled.length_eq
    rw [Spelling.spelled, hnil, List.map_nil, List.length_singleton] at hone
    omega
  have hkey : key s.text = ws.flatMap capitalised :=
    (s.key_text hmore).trans (flatMap_capitalised_of_forall₂ hspelled)
  exact ⟨by rw [← hkey, key_key], hkey⟩

/-- Two words in a spelling that begins with a dash and has a letter beyond ASCII between them. -/
def dashedSample : Spelling where
  before := ['-']
  first := ['f', 'O']
  more := [(['é', ' '], ['2', 'B'])]
  behind := []
  gap_before := List.forall_mem_singleton.mpr (by decide)
  word_first := ⟨by simp, by simp⟩
  gap_more := List.forall_mem_singleton.mpr ⟨by simp, by simp [Gap]⟩
  word_more := List.forall_mem_singleton.mpr ⟨by simp, by simp⟩
  gap_behind := fun _ hc => absurd hc List.not_mem_nil

theorem key_canonical_dashedSample :
    2 ≤ [['f', 'o'], ['2', 'b']].length ∧
    List.Forall₂ (fun w' w => Text.sameFold w' w = true) dashedSample.spelled
      [['f', 'o'], ['2', 'b']] ∧
    dashedSample.text = "-fOé 2B".toList ∧
    key dashedSample.text = key "Fo2b".toList ∧
    key dashedSample.text = "Fo2b".toList := by
  have hlength : 2 ≤ [['f', 'o'], ['2', 'b']].length := Nat.le_refl 2
  have hspelled : List.Forall₂ (fun w' w => Text.sameFold w' w = true) dashedSample.spelled
      [['f', 'o'], ['2', 'b']] := .cons (by decide) (.cons (by decide) .nil)
  obtain ⟨hkey, heq⟩ := key_canonical.2 _ hlength dashedSample hspelled
  exact ⟨hlength, hspelled, rfl, hkey, heq⟩

end Stencil.ComponentName
