/-
# Settings as they are written in JSON

A JSON text is a row of tokens with white space in front of them, between them and behind them
(`JsonToken.Spaced`).  Where no two numbers meet, the tokens are what the text is scanned as,
whatever the white space is (`JsonToken.Spaced.scan?_eq`): every token ends where the next one
begins, since no digit stands behind a number.

So what settings a text writes is a matter of its tokens.  `Settings.Written` has the shapes that
tokens of settings can have, and what they say of each value: an object with its members in either
order, or an array.  Values that are left out are the usual ones.  The depth is a number of any
length, and it is the one thing that can be wrong: it must be below 2^64, and then it is read to the
last digit (`Settings.read?_of_written`).
-/
import Stencil.Render.SettingsJson
import Stencil.Proofs.Text.Decimals

namespace Stencil

namespace JsonToken

/-! ## 1. One token -/

/-- The character stands for itself in a string. -/
def isPlain (c : Char) : Bool := c != '"' && c != '\\' && 0x20 ≤ c.toNat

/-- The token as it is written; of strings, those whose characters stand for themselves. -/
def written : JsonToken → Text
  | mark c => [c]
  | string t => '"' :: (t ++ ['"'])
  | number n => Text.decimal n
  | flag b => if b then ['t', 'r', 'u', 'e'] else ['f', 'a', 'l', 's', 'e']

/-- The token is read as what it is. -/
def Fine : JsonToken → Prop
  | mark c => c ∈ marks
  | string t => ∀ c ∈ t, isPlain c = true
  | number _ => True
  | flag _ => True

def isNumber : JsonToken → Bool
  | number _ => true
  | _ => false

variable {token : JsonToken} {tokens : List JsonToken} {t gap rest : Text}

theorem readString?_cons {c : Char} (h : isPlain c = true) (t : Text) :
    readString? (c :: t) = pushChar (some c) (readString? t) := by
  simp only [isPlain, Bool.and_eq_true, bne_iff_ne, decide_eq_true_eq] at h
  obtain ⟨⟨hquote, hescape⟩, hcontrol⟩ := h
  rw [readString?.eq_def]
  split
  · next heq => cases heq
  · next heq => exact absurd (List.cons.inj heq).1 hquote
  · next heq => exact absurd (List.cons.inj heq).1 hescape
  · next heq => exact absurd (List.cons.inj heq).1 hescape
  · next heq =>
    obtain ⟨rfl, rfl⟩ := List.cons.inj heq
    rw [if_neg (by omega)]

/-- A string is read up to its quote. -/
theorem readString?_append (h : ∀ c ∈ t, isPlain c = true) (rest : Text) :
    readString? (t ++ '"' :: rest) = some (t, rest) := by
  induction t with
  | nil => rw [List.nil_append, readString?]
  | cons c t ih =>
    obtain ⟨hc, ht⟩ := List.forall_mem_cons.mp h
    rw [List.cons_append, readString?_cons hc, ih ht]
    rfl

/-- A mark is no digit and no white space. -/
theorem not_isDigit_of_mem_marks {c : Char} (h : c ∈ marks) :
    c.isDigit = false ∧ isBlank c = false := by
  simp only [marks, List.mem_cons, List.not_mem_nil, or_false] at h
  rcases h with rfl | rfl | rfl | rfl | rfl | rfl <;> exact ⟨rfl, rfl⟩

/-- A number is read up to the first character that is no digit. -/
theorem read?_number (n : Nat) (hrest : rest.head?.all fun c => !c.isDigit) :
    ∃ first more, Text.decimal n = first :: more ∧ first.isDigit = true ∧
      read? first (more ++ rest) = some (number n, rest) := by
  obtain ⟨first, more, heq, hzero⟩ := Text.exists_decimal_eq n
  have hdigits : ∀ c ∈ first :: more, c.isDigit = true :=
    fun c hc => Text.isDigit_of_mem_decimal (heq ▸ hc)
  obtain ⟨hfirst, hmore⟩ := List.forall_mem_cons.mp hdigits
  have hne : ∀ {c : Char}, c.isDigit = false → first ≠ c := by
    rintro c hc rfl
    exact absurd hfirst (by simp [hc])
  have hmark : ¬ marks.contains first = true := by
    intro hmem
    have hnone := (not_isDigit_of_mem_marks (List.contains_iff_mem.mp hmem)).1
    exact absurd hfirst (by simp [hnone])
  have hstop : rest.takeWhile Char.isDigit = [] ∧ rest.dropWhile Char.isDigit = rest := by
    cases rest with
    | nil => exact ⟨rfl, rfl⟩
    | cons c rest =>
      have hc : c.isDigit = false := by simpa using hrest
      exact ⟨by rw [List.takeWhile_cons, hc]; rfl, by rw [List.dropWhile_cons, hc]; rfl⟩
  have htake : (more ++ rest).takeWhile Char.isDigit = more := by
    rw [List.takeWhile_append_of_pos hmore, hstop.1, List.append_nil]
  have hdrop : (more ++ rest).dropWhile Char.isDigit = rest := by
    rw [List.dropWhile_append_of_pos hmore, hstop.2]
  refine ⟨first, more, heq, hfirst, ?_⟩
  rw [read?, if_neg hmark, if_neg (hne rfl), if_neg (hne rfl), if_neg (hne rfl), if_pos hfirst,
    htake, hdrop]
  dsimp only
  rw [if_neg fun h => h.2 (hzero h.1), ← heq, Text.number?_decimal]
  rfl

/-- **A token is read as what it is**, if what follows does not go on with a number. -/
theorem read?_written (h : token.Fine)
    (hrest : token.isNumber = true → rest.head?.all fun c => !c.isDigit) :
    ∃ first more, token.written = first :: more ∧ isBlank first = false ∧
      read? first (more ++ rest) = some (token, rest) := by
  cases token with
  | mark c =>
    refine ⟨c, [], rfl, (not_isDigit_of_mem_marks h).2, ?_⟩
    rw [read?, if_pos (List.contains_iff_mem.mpr h)]
    rfl
  | string t =>
    refine ⟨'"', t ++ ['"'], rfl, rfl, ?_⟩
    rw [List.append_assoc, List.singleton_append, read?, if_neg (by decide), if_pos rfl,
      readString?_append h]
    rfl
  | number n =>
    obtain ⟨first, more, heq, hdigit, hread⟩ := read?_number n (hrest rfl)
    refine ⟨first, more, heq, ?_, hread⟩
    simp only [isBlank, Bool.or_eq_false_iff, beq_eq_false_iff_ne]
    refine ⟨⟨⟨?_, ?_⟩, ?_⟩, ?_⟩ <;> rintro rfl <;> exact absurd hdigit (by decide)
  | flag b =>
    cases b with
    | true => exact ⟨'t', ['r', 'u', 'e'], rfl, rfl, rfl⟩
    | false => exact ⟨'f', ['a', 'l', 's', 'e'], rfl, rfl, rfl⟩

/-! ## 2. Tokens with white space -/

/-- `Spaced t tokens`: the text is the tokens, with any white space in front of them, between them
and behind them. -/
inductive Spaced : Text → List JsonToken → Prop
  | last {gap : Text} (hgap : ∀ c ∈ gap, isBlank c = true) : Spaced gap []
  | token {gap t : Text} {token : JsonToken} {tokens : List JsonToken}
      (hgap : ∀ c ∈ gap, isBlank c = true) (h : Spaced t tokens) :
    Spaced (gap ++ (token.written ++ t)) (token :: tokens)

/-- The tokens can be told apart: no number follows a number. -/
def Apart (tokens : List JsonToken) : Prop :=
  tokens.IsChain fun a b => ¬ (a.isNumber = true ∧ b.isNumber = true)

/-- White space is no token. -/
theorem scan?_blank (hgap : ∀ c ∈ gap, isBlank c = true) : scan? gap = some [] := by
  have hnil : gap.dropWhile isBlank = [] := List.dropWhile_eq_nil_iff.mpr hgap
  rw [scan?]
  split
  · rfl
  · next heq => cases hnil.symm.trans heq

/-- A token is scanned behind white space. -/
theorem scan?_token (hgap : ∀ c ∈ gap, isBlank c = true) (h : token.Fine)
    (hrest : token.isNumber = true → rest.head?.all fun c => !c.isDigit) :
    scan? (gap ++ (token.written ++ rest)) = (scan? rest).map (token :: ·) := by
  obtain ⟨first, more, heq, hblank, hread⟩ := read?_written h hrest
  have hdrop : (gap ++ (token.written ++ rest)).dropWhile isBlank = first :: (more ++ rest) := by
    rw [List.dropWhile_append_of_pos hgap, heq, List.cons_append, List.dropWhile_cons, hblank]
    rfl
  rw [scan?]
  split
  · next hnil => cases hdrop.symm.trans hnil
  · next hcons =>
    obtain ⟨rfl, rfl⟩ := List.cons.inj (hdrop.symm.trans hcons)
    split
    · next hsome =>
      obtain ⟨rfl, rfl⟩ := Prod.mk.inj (Option.some.inj (hread.symm.trans hsome))
      rfl
    · next hnone => cases hread.symm.trans hnone

theorem not_isDigit_of_isBlank {c : Char} (h : isBlank c = true) : c.isDigit = false := by
  simp only [isBlank, Bool.or_eq_true, beq_iff_eq] at h
  rcases h with ((rfl | rfl) | rfl) | rfl <;> rfl

/-- White space, and what is no number, begins with no digit. -/
theorem Spaced.head?_not_digit (h : Spaced t tokens) (hfine : ∀ token ∈ tokens, token.Fine)
    (hhead : tokens.head?.all fun token => !token.isNumber) :
    t.head?.all fun c => !c.isDigit := by
  have hgap : ∀ {gap : Text} {c : Char} {u : Text}, (∀ c ∈ gap, isBlank c = true) →
      c.isDigit = false → (gap ++ c :: u).head?.all fun c => !c.isDigit := by
    intro gap c u hgap hc
    cases gap with
    | nil => simp [hc]
    | cons d gap => simp [not_isDigit_of_isBlank (hgap d List.mem_cons_self)]
  cases h with
  | last hblank =>
    cases t with
    | nil => rfl
    | cons d gap => simp [not_isDigit_of_isBlank (hblank d List.mem_cons_self)]
  | @token gap u token tokens hblank _ =>
    cases token with
    | mark c => exact hgap hblank (not_isDigit_of_mem_marks (hfine _ List.mem_cons_self)).1
    | string t => exact hgap hblank rfl
    | number n => exact absurd hhead (by simp [isNumber])
    | flag b =>
      cases b with
      | true => exact hgap hblank rfl
      | false => exact hgap hblank rfl

/-- **A text is scanned as its tokens, whatever white space is between them.** -/
theorem Spaced.scan?_eq (h : Spaced t tokens) (hfine : ∀ token ∈ tokens, token.Fine)
    (hapart : Apart tokens) : scan? t = some tokens := by
  induction h with
  | last hgap => exact scan?_blank hgap
  | @token gap u token tokens hgap hu ih =>
    obtain ⟨htoken, htokens⟩ := List.forall_mem_cons.mp hfine
    have hrest : token.isNumber = true → u.head?.all fun c => !c.isDigit := by
      intro hnumber
      refine hu.head?_not_digit htokens ?_
      cases tokens with
      | nil => rfl
      | cons token' tokens =>
        have hnext := (List.isChain_cons_cons.mp hapart).1
        simpa [hnumber] using hnext
    rw [scan?_token hgap htoken hrest, ih htokens hapart.tail]
    rfl

/-- Tokens may be written without any white space. -/
theorem spaced_flatMap (tokens : List JsonToken) : Spaced (tokens.flatMap written) tokens := by
  induction tokens with
  | nil => exact .last (by simp)
  | cons token tokens ih =>
    exact .token (List.forall_mem_nil _) ih

end JsonToken

/-! ## 3. Settings -/

namespace Settings

open JsonToken

/-- `Written depth compact tokens`: the tokens write settings in which these values are given.  Both
members of an object, or both entries of an array, may be left out, of an array the last first. -/
inductive Written : Option Nat → Option Bool → List JsonToken → Prop
  | nothing : Written none none [mark '{', mark '}']
  | depth (n : Nat) :
    Written (some n) none [mark '{', string depthKey, mark ':', number n, mark '}']
  | compact (b : Bool) :
    Written none (some b) [mark '{', string compactKey, mark ':', flag b, mark '}']
  | depthFirst (n : Nat) (b : Bool) : Written (some n) (some b)
      [mark '{', string depthKey, mark ':', number n, mark ',', string compactKey, mark ':', flag b,
        mark '}']
  | compactFirst (n : Nat) (b : Bool) : Written (some n) (some b)
      [mark '{', string compactKey, mark ':', flag b, mark ',', string depthKey, mark ':', number n,
        mark '}']
  | noEntry : Written none none [mark '[', mark ']']
  | entry (n : Nat) : Written (some n) none [mark '[', number n, mark ']']
  | entries (n : Nat) (b : Bool) :
    Written (some n) (some b) [mark '[', number n, mark ',', flag b, mark ']']

variable {depth : Option Nat} {compact : Option Bool} {tokens : List JsonToken} {t : Text}

/-- The tokens of settings are read as what they are. -/
theorem Written.fine (h : Written depth compact tokens) : ∀ token ∈ tokens, token.Fine := by
  have hdepth : ∀ c ∈ depthKey, isPlain c = true := List.all_eq_true.mp rfl
  have hcompact : ∀ c ∈ compactKey, isPlain c = true := List.all_eq_true.mp rfl
  cases h <;> simp +contextual [Fine, marks, hdepth, hcompact]

/-- The tokens of settings can be told apart. -/
theorem Written.apart (h : Written depth compact tokens) : Apart tokens := by
  cases h <;> simp [Apart, isNumber]

/-- Tokens of settings are read as the values that are given, and the usual ones for all others. -/
theorem Written.ofTokens?_eq (h : Written depth compact tokens) :
    ofTokens? tokens = (depth? (depth.getD 32)).map (Settings.mk · (compact.getD true)) := by
  cases h with
  | nothing => rfl
  | depth n => rfl
  | compact b => rfl
  | depthFirst n b => rfl
  | compactFirst n b => rfl
  | noEntry => rfl
  | entry n => rfl
  | entries n b => rfl

/-- **What a text of settings is read as**, whatever white space is in it: it is refused if the
depth does not fit, and nothing else can be wrong with it. -/
theorem read?_of_written (h : Written depth compact tokens) (ht : Spaced t tokens) :
    read? t = if depth.getD 32 < 2 ^ 64 then
      some ⟨UInt64.ofNat (depth.getD 32), compact.getD true⟩ else none := by
  have hsize : UInt64.size = 2 ^ 64 := rfl
  rw [read?, ht.scan?_eq h.fine h.apart, Option.bind_some, h.ofTokens?_eq, depth?, hsize]
  split <;> rfl

/-- Settings are written as an object, without white space. -/
theorem write_eq (s : Settings) : s.write =
    [mark '{', string depthKey, mark ':', number s.maxDepth.toNat, mark ',', string compactKey,
      mark ':', flag s.compactWhitespace, mark '}'].flatMap JsonToken.written := by
  simp [write, JsonToken.written]

/-- **Settings survive being written in JSON.**  What is written of settings is read as them; so is
every other text with their values, as an object with its members in either order or as an array,
whatever white space is in it.  A text in which a number is given for the depth is read if and only
if the number is below 2^64, and then as this number. -/
theorem json_exact (s : Settings) :
    read? s.write = some s ∧
    (∀ tokens t, Written (some s.maxDepth.toNat) (some s.compactWhitespace) tokens →
      Spaced t tokens → read? t = some s) ∧
    ∀ n compact tokens t, Written (some n) compact tokens → Spaced t tokens →
      ((∃ s', read? t = some s') ↔ n < 2 ^ 64) ∧
        ∀ s', read? t = some s' →
          s'.maxDepth.toNat = n ∧ s'.compactWhitespace = compact.getD true := by
  have hsurvives : ∀ tokens t, Written (some s.maxDepth.toNat) (some s.compactWhitespace) tokens →
      Spaced t tokens → read? t = some s := by
    intro tokens t h ht
    rw [read?_of_written h ht, Option.getD_some, if_pos s.maxDepth.toNat_lt, UInt64.ofNat_toNat]
    rfl
  refine ⟨?_, hsurvives, ?_⟩
  · rw [write_eq]
    exact hsurvives _ _ (.depthFirst _ _) (spaced_flatMap _)
  · intro n compact tokens t h ht
    rw [read?_of_written h ht, Option.getD_some]
    by_cases hfits : n < 2 ^ 64
    · rw [if_pos hfits]
      refine ⟨iff_of_true ⟨_, rfl⟩ hfits, ?_⟩
      rintro s' ⟨⟩
      exact ⟨UInt64.toNat_ofNat_of_lt hfits, rfl⟩
    · rw [if_neg hfits]
      exact ⟨iff_of_false (by simp) hfits, by simp⟩

/-- The largest depth, in an array with white space, and one more, in an object. -/
theorem json_largestDepth :
    read? "[18446744073709551615 ,\tfalse]\n".toList = some ⟨18446744073709551615, false⟩ ∧
      read? "\x7b \"max_depth\": 18446744073709551616\x7d".toList = none := by
  obtain ⟨-, hsurvives, hdepth⟩ := json_exact ⟨18446744073709551615, false⟩
  have hnone : ∀ c ∈ ([] : Text), isBlank c = true := List.forall_mem_nil _
  have hspace : ∀ c ∈ [' '], isBlank c = true := by simp [isBlank]
  have htab : ∀ c ∈ ['\t'], isBlank c = true := by simp [isBlank]
  have hline : ∀ c ∈ ['\n'], isBlank c = true := by simp [isBlank]
  constructor
  · have hread := hsurvives _ _ (.entries _ _)
      (.token hnone (.token hnone (.token hspace (.token htab (.token hnone (.last hline))))))
    exact hread
  · obtain ⟨hfits, -⟩ := hdepth 18446744073709551616 none _ _ (.depth _)
      (.token hnone (.token hspace (.token hnone (.token hspace (.token hnone (.last hnone))))))
    have hrefused := mt hfits.mp (by decide)
    exact Option.eq_none_iff_forall_ne_some.mpr fun s' hs' => hrefused ⟨s', hs'⟩

end Settings

end Stencil
