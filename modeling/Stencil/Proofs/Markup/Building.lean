/-
# Building trees token by token

Trees are built of tokens in steps.  What a step starts from are the elements that are open and the
trees that are finished inside the innermost of them; `token.Builds p opened done opened' done'`
says what one token makes of them, with a case for each way in which a token does not fail.  The
only tokens that fail are end tags, in one of two ways (`Refuses`, `builds_or_refuses`).

Tokens build trees by such steps, one for each token, to a state in which nothing is open
(`nest_of_builds`, `exists_builds`, `nest_nil_eq_ok`).  So what every step keeps holds of the trees
that are built (`nest_invariant`), and what is to be known of `nest` is known of a step.
-/
import Mathlib
import Stencil.Markup.Nesting

namespace Stencil.Token

/-! ## 1. Steps -/

/-- What a token at `p` makes of the open elements and of the trees that are finished inside the
innermost of them. -/
inductive Builds (p : Nat) :
    Token → List OpenElement → List Tree → List OpenElement → List Tree → Prop
  | text {opened : List OpenElement} {done : List Tree} {t : Text} :
    Builds p (.text t) opened done opened (.leaf (.text t) :: done)
  | doctype {opened : List OpenElement} {done : List Tree} {t : Text} :
    Builds p (.doctype t) opened done opened (.leaf (.doctype t) :: done)
  | dropped {opened : List OpenElement} {done : List Tree} :
    Builds p .dropped opened done opened done
  | empty {opened : List OpenElement} {done : List Tree} {e : Element} :
    Builds p (.empty e) opened done opened (.leaf (.element e) :: done)
  | bare {opened : List OpenElement} {done : List Tree} {e : Element} (hvoid : e.isVoid = true) :
    Builds p (.opening e) opened done opened (.leaf (.element e) :: done)
  | opening {opened : List OpenElement} {done : List Tree} {e : Element}
      (hvoid : e.isVoid = false) :
    Builds p (.opening e) opened done (⟨e, p, done⟩ :: opened) []
  | voidEnd {opened : List OpenElement} {done : List Tree} {name : Text}
      (hvoid : isVoidName name = true) :
    Builds p (.closing name) opened done opened done
  | closing {innermost : OpenElement} {outer : List OpenElement} {done : List Tree} {name : Text}
      (hvoid : isVoidName name = false)
      (hname : Text.sameFold innermost.element.name name = true) :
    Builds p (.closing name) (innermost :: outer) done outer
      (.node (.element innermost.element) done.reverse :: innermost.before)

/-- What is wrong with an end tag at `p` that is not that of the innermost open element. -/
inductive Refuses (p : Nat) (name : Text) : List OpenElement → MarkupFault → Prop
  | mismatched {innermost : OpenElement} {outer : List OpenElement}
      (hname : Text.sameFold innermost.element.name name = false) :
    Refuses p name (innermost :: outer) (.mismatched innermost.element.name name p)
  | unexpectedEnd : Refuses p name [] (.unexpectedEnd name p)

section Steps

variable {fault : Option MarkupFault} {opened opened' : List OpenElement}
  {done done' ts : List Tree} {p : Nat} {token : Token} {rest : List (Nat × Token)}

/-- After a step, the other tokens go on from the state that it leads to. -/
theorem nest_of_builds (h : token.Builds p opened done opened' done') :
    nest fault opened done ((p, token) :: rest) = nest fault opened' done' rest := by
  cases h with
  | bare hvoid => rw [nest, if_pos hvoid]
  | opening hvoid => rw [nest, if_neg (by simp [hvoid])]
  | voidEnd hvoid =>
    rw [nest.eq_def]
    dsimp only
    rw [if_pos hvoid]
  | closing hvoid hname =>
    rw [nest.eq_def]
    dsimp only
    rw [if_neg (by simp [hvoid]), if_pos hname]
  | _ => rfl

/-- The building ends where an end tag is refused. -/
theorem nest_of_refuses {found : MarkupFault} {name : Text} (hvoid : isVoidName name = false)
    (h : Refuses p name opened found) :
    nest fault opened done ((p, .closing name) :: rest) = .error found := by
  rw [nest.eq_def]
  dsimp only
  rw [if_neg (by simp [hvoid])]
  cases h with
  | mismatched hname =>
    dsimp only
    rw [if_neg (by simp [hname])]
  | unexpectedEnd => rfl

/-- **A token takes a step**, unless it is an end tag that is refused. -/
theorem builds_or_refuses (p : Nat) (token : Token) (opened : List OpenElement)
    (done : List Tree) :
    (∃ opened' done', token.Builds p opened done opened' done') ∨
      ∃ name found, token = .closing name ∧ isVoidName name = false ∧
        Refuses p name opened found := by
  cases token with
  | text t => exact Or.inl ⟨_, _, .text⟩
  | doctype t => exact Or.inl ⟨_, _, .doctype⟩
  | dropped => exact Or.inl ⟨_, _, .dropped⟩
  | empty e => exact Or.inl ⟨_, _, .empty⟩
  | opening e =>
    cases hvoid : e.isVoid with
    | true => exact Or.inl ⟨_, _, .bare hvoid⟩
    | false => exact Or.inl ⟨_, _, .opening hvoid⟩
  | closing name =>
    cases hvoid : isVoidName name with
    | true => exact Or.inl ⟨_, _, .voidEnd hvoid⟩
    | false =>
      cases opened with
      | nil => exact Or.inr ⟨name, _, rfl, hvoid, .unexpectedEnd⟩
      | cons innermost outer =>
        cases hname : Text.sameFold innermost.element.name name with
        | true => exact Or.inl ⟨_, _, .closing hvoid hname⟩
        | false => exact Or.inr ⟨name, _, rfl, hvoid, .mismatched hname⟩

/-- A token that does not end the building takes a step. -/
theorem exists_builds (h : nest fault opened done ((p, token) :: rest) = .ok ts) :
    ∃ opened' done', token.Builds p opened done opened' done' ∧
      nest fault opened' done' rest = .ok ts := by
  rcases builds_or_refuses p token opened done with ⟨opened', done', hbuilds⟩ |
    ⟨name, found, rfl, hvoid, hrefuses⟩
  · exact ⟨opened', done', hbuilds, nest_of_builds hbuilds ▸ h⟩
  · cases (nest_of_refuses hvoid hrefuses).symm.trans h

/-- The tokens end where nothing is open, and not in a fault. -/
theorem nest_nil_eq_ok :
    nest fault opened done [] = .ok ts ↔ fault = none ∧ opened = [] ∧ done.reverse = ts := by
  rw [nest.eq_def]
  constructor
  · intro h
    cases fault with
    | some found => exact absurd h nofun
    | none =>
      cases opened with
      | nil => exact ⟨rfl, rfl, Except.ok.inj h⟩
      | cons innermost outer => exact absurd h nofun
  · rintro ⟨rfl, rfl, rfl⟩
    rfl

end Steps

/-! ## 2. Runs -/

/-- **What every step keeps holds of the trees that are built.** -/
theorem nest_invariant (Inv : List OpenElement → List Tree → Prop) {fault : Option MarkupFault}
    {tokens : List (Nat × Token)} {opened : List OpenElement} {done ts : List Tree}
    (h : nest fault opened done tokens = .ok ts)
    (hstep : ∀ x ∈ tokens, ∀ {o o' : List OpenElement} {s s' : List Tree},
      x.2.Builds x.1 o s o' s' → Inv o s → Inv o' s')
    (hinv : Inv opened done) : Inv [] ts.reverse := by
  induction tokens generalizing opened done with
  | nil =>
    obtain ⟨-, rfl, rfl⟩ := nest_nil_eq_ok.mp h
    rwa [List.reverse_reverse]
  | cons x rest ih =>
    obtain ⟨opened', done', hbuilds, hrest⟩ := exists_builds h
    refine ih hrest (fun y hy => hstep y (List.mem_cons_of_mem x hy)) ?_
    exact hstep x List.mem_cons_self hbuilds hinv

/-- Tokens that end in a fault build no trees. -/
theorem fault_eq_none {fault : Option MarkupFault} {tokens : List (Nat × Token)}
    {opened : List OpenElement} {done ts : List Tree}
    (h : nest fault opened done tokens = .ok ts) : fault = none := by
  induction tokens generalizing opened done with
  | nil => exact (nest_nil_eq_ok.mp h).1
  | cons x rest ih =>
    obtain ⟨opened', done', -, hrest⟩ := exists_builds h
    exact ih hrest

end Stencil.Token
