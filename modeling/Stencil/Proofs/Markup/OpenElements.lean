/-
# Elements that are open

Which elements are open at a place in a source can be said without a stack, as it can be said which
trees tokens write: `Opens tokens es` puts the start tags of the elements `es` between tokens that
write trees.

The state of the building of trees keeps more, and its parts belong together: an open element keeps
where its start tag is and what was finished in front of it.  `Stacked` ties such a state to the
tokens that led to it.  A step leads from one such state to another (`Stacked.step`), so tokens lead
to one unless an end tag among them is refused (`stacked_or_refuses`); and what is built from there
on depends on the state alone (`Stacked.nest_eq`).  Both ways lead between the state and the
elements that are open (`Stacked.opens`, `Opens.exists_stacked`).

A state is known by what is built from it (`eq_of_nest_eq`): without more tokens its innermost
element is reported, and with the end tag of this it goes on as the state around.  So tokens lead to
one state at most, and there is one answer to the question what is open behind them
(`Opens.unique`).
-/
import Stencil.Proofs.Markup.Grammar

namespace Stencil.Token

/-! ## 1. The grammar of open elements -/

/-- `Opens tokens es`: behind the tokens the elements `es` are open, innermost first.  In front of
the start tag of each of them, and behind that of the innermost, stand tokens that write trees. -/
inductive Opens : List Token → List Element → Prop
  | closed {tokens : List Token} {ts : List Tree} (h : Derives tokens ts) : Opens tokens []
  | inside {before tokens : List Token} {e : Element} {outer : List Element} {ts : List Tree}
      (hbefore : Opens before outer) (hvoid : e.isVoid = false) (h : Derives tokens ts) :
    Opens (before ++ .opening e :: tokens) (e :: outer)

/-- Tokens that write trees leave open what was. -/
theorem Opens.append {tokens more : List Token} {es : List Element} {ts : List Tree}
    (h : Opens tokens es) (hmore : Derives more ts) : Opens (tokens ++ more) es := by
  cases h with
  | closed h => exact .closed (h.append hmore)
  | inside hbefore hvoid h =>
    rw [List.append_assoc, List.cons_append]
    exact .inside hbefore hvoid (h.append hmore)

/-- An end tag with its name closes the innermost element. -/
theorem Opens.closing {tokens : List Token} {e : Element} {outer : List Element} {name : Text}
    (h : Opens tokens (e :: outer)) (hname : Text.sameFold e.name name = true) :
    Opens (tokens ++ [.closing name]) outer := by
  cases h with
  | inside hbefore hvoid hinside =>
    rw [List.append_assoc, List.cons_append]
    exact hbefore.append (.element hvoid hname hinside .nil)

/-! ## 2. States -/

/-- A state in which trees are built, and the tokens that lead to it: behind the start tag of the
innermost open element they write the trees that are finished, and those in front of it lead to the
state that the element keeps. -/
inductive Stacked : List (Nat × Token) → List OpenElement → List Tree → Prop
  | bottom {items : List (Nat × Token)} {done : List Tree}
      (h : Derives (items.map Prod.snd) done.reverse) : Stacked items [] done
  | inside {before items : List (Nat × Token)} {innermost : OpenElement}
      {outer : List OpenElement} {done : List Tree}
      (hbefore : Stacked before outer innermost.before)
      (hvoid : innermost.element.isVoid = false)
      (h : Derives (items.map Prod.snd) done.reverse) :
    Stacked (before ++ (innermost.position, .opening innermost.element) :: items)
      (innermost :: outer) done

variable {items more before : List (Nat × Token)} {opened opened' : List OpenElement}
  {done done' us : List Tree} {p : Nat} {token : Token}

theorem stacked_nil : Stacked [] [] [] := .bottom .nil

/-- Tokens that write trees finish them in the innermost element. -/
theorem Stacked.append (h : Stacked items opened done) (hmore : Derives (more.map Prod.snd) us) :
    Stacked (items ++ more) opened (us.reverse ++ done) := by
  have hjoin : ∀ {inside : List (Nat × Token)}, Derives (inside.map Prod.snd) done.reverse →
      Derives ((inside ++ more).map Prod.snd) (us.reverse ++ done).reverse := by
    intro inside hinside
    rw [List.map_append, List.reverse_append, List.reverse_reverse]
    exact hinside.append hmore
  cases h with
  | bottom h => exact .bottom (hjoin h)
  | inside hbefore hvoid h =>
    rw [List.append_assoc, List.cons_append]
    exact .inside hbefore hvoid (hjoin h)

/-- **What one token makes of a state belongs to the tokens up to it.** -/
theorem Stacked.step (h : Stacked items opened done)
    (hbuilds : token.Builds p opened done opened' done') :
    Stacked (items ++ [(p, token)]) opened' done' := by
  have halone : ∀ {us : List Tree}, token.alone? = some us →
      Stacked (items ++ [(p, token)]) opened (us.reverse ++ done) := fun hus =>
    h.append (Derives.singleton hus)
  cases hbuilds with
  | text => exact halone rfl
  | doctype => exact halone rfl
  | dropped => exact halone rfl
  | empty => exact halone rfl
  | bare hvoid => exact halone (if_pos hvoid)
  | voidEnd hvoid => exact halone (if_pos hvoid)
  | @opening _ _ e hvoid => exact @Stacked.inside _ _ ⟨e, p, done⟩ _ _ h hvoid .nil
  | closing _ hname =>
    cases h with
    | inside hbefore hvoid hitems =>
      rw [List.append_assoc, List.cons_append]
      refine @Stacked.append _ _ _ _ [_] hbefore ?_
      rw [List.map_cons, List.map_append]
      exact .element hvoid hname hitems .nil

/-- **Tokens lead to a state**, or to an end tag that is refused. -/
theorem stacked_or_refuses (h : Stacked before opened done) (items : List (Nat × Token)) :
    (∃ opened' done', Stacked (before ++ items) opened' done') ∨
      ∃ inside p name rest opened' done' found, items = inside ++ (p, .closing name) :: rest ∧
        Stacked (before ++ inside) opened' done' ∧ isVoidName name = false ∧
        Refuses p name opened' found := by
  induction items generalizing before opened done with
  | nil =>
    rw [List.append_nil]
    exact Or.inl ⟨opened, done, h⟩
  | cons x items ih =>
    obtain ⟨p, token⟩ := x
    rcases builds_or_refuses p token opened done with ⟨opened', done', hbuilds⟩ |
      ⟨name, found, rfl, hvoid, hrefuses⟩
    · have hbehind := ih (h.step hbuilds)
      rw [List.append_assoc, List.singleton_append] at hbehind
      refine hbehind.imp_right ?_
      rintro ⟨inside, q, name, rest, o, s, found, rfl, hinside, hvoid, hrefuses⟩
      rw [List.append_assoc, List.singleton_append] at hinside
      exact ⟨(p, token) :: inside, q, name, rest, o, s, found, rfl, hinside, hvoid, hrefuses⟩
    · refine Or.inr ⟨[], p, name, items, opened, done, found, rfl, ?_, hvoid, hrefuses⟩
      rwa [List.append_nil]

/-- **The tokens of a state build it**, whatever follows them. -/
theorem Stacked.nest_eq (h : Stacked items opened done) (fault : Option MarkupFault)
    (more : List (Nat × Token)) :
    nest fault [] [] (items ++ more) = nest fault opened done more := by
  induction h generalizing more with
  | bottom h => rw [nest_of_derives h rfl, List.reverse_reverse, List.append_nil]
  | inside _ hvoid h ih =>
    rw [List.append_assoc, ih, List.cons_append, nest_of_builds (.opening hvoid),
      nest_of_derives h rfl, List.reverse_reverse, List.append_nil]

/-! ## 3. From states to open elements and back -/

theorem Stacked.opens (h : Stacked items opened done) :
    Opens (items.map Prod.snd) (opened.map OpenElement.element) := by
  induction h with
  | bottom h => exact .closed h
  | inside _ hvoid h ih =>
    rw [List.map_append, List.map_cons]
    exact .inside ih hvoid h

theorem Opens.exists_stacked {tokens : List Token} {es : List Element} (h : Opens tokens es)
    (hitems : items.map Prod.snd = tokens) :
    ∃ opened done, opened.map OpenElement.element = es ∧ Stacked items opened done := by
  induction h generalizing items with
  | @closed _ ts h =>
    refine ⟨[], ts.reverse, rfl, .bottom ?_⟩
    rwa [hitems, List.reverse_reverse]
  | @inside _ _ e _ ts _ hvoid h ih =>
    obtain ⟨before, items', rfl, hbefore, hitems'⟩ := List.map_eq_append_iff.mp hitems
    obtain ⟨p, inside, rfl, hinside⟩ := exists_of_map_snd hitems'
    obtain ⟨outer, done, rfl, houter⟩ := ih hbefore
    have hstacked : Stacked (before ++ (p, .opening e) :: inside) (⟨e, p, done⟩ :: outer)
        ts.reverse := by
      refine @Stacked.inside _ _ ⟨e, p, done⟩ _ _ houter hvoid ?_
      rwa [hinside, List.reverse_reverse]
    exact ⟨_, _, rfl, hstacked⟩

/-! ## 4. One answer -/

/-- **A state is known by what is built from it.** -/
theorem eq_of_nest_eq (hvoid : ∀ o ∈ opened, o.element.isVoid = false)
    (h : ∀ more, nest none opened done more = nest none opened' done' more) :
    opened = opened' ∧ done = done' := by
  induction opened generalizing opened' done done' with
  | nil =>
    have hend := h []
    cases opened' with
    | nil => exact ⟨rfl, List.reverse_injective (Except.ok.inj hend)⟩
    | cons o' outer' => cases hend
  | cons o outer ih =>
    have hend := h []
    cases opened' with
    | nil => cases hend
    | cons o' outer' =>
      obtain ⟨hname, hposition⟩ := MarkupFault.unclosed.inj (Except.error.inj hend)
      -- the end tag of both elements leads to the states around them
      have hinnermost := hvoid o List.mem_cons_self
      have hsame : Text.sameFold o.element.name o.element.name = true := beq_self_eq_true _
      have hsame' : Text.sameFold o'.element.name o.element.name = true := hname ▸ hsame
      have houtside : ∀ more,
          nest none outer (.node (.element o.element) done.reverse :: o.before) more =
            nest none outer' (.node (.element o'.element) done'.reverse :: o'.before) more := by
        intro more
        have hclosed := h ((0, .closing o.element.name) :: more)
        rwa [nest_of_builds (.closing hinnermost hsame),
          nest_of_builds (.closing hinnermost hsame')] at hclosed
      obtain ⟨houter, hdone⟩ := ih (fun x hx => hvoid x (List.mem_cons_of_mem o hx)) houtside
      obtain ⟨hnode, hbefore⟩ := List.cons.inj hdone
      obtain ⟨hkind, hchildren⟩ := Tree.node.inj hnode
      have ho : o = o' := by
        cases o
        cases o'
        cases NodeKind.element.inj hkind
        cases hposition
        cases hbefore
        rfl
      exact ⟨congrArg₂ List.cons ho houter, List.reverse_injective hchildren⟩

theorem Stacked.not_void (h : Stacked items opened done) :
    ∀ o ∈ opened, o.element.isVoid = false := by
  induction h with
  | bottom => exact fun o ho => absurd ho List.not_mem_nil
  | inside _ hvoid _ ih => exact List.forall_mem_cons.mpr ⟨hvoid, ih⟩

theorem Stacked.unique (h : Stacked items opened done) (h' : Stacked items opened' done') :
    opened = opened' ∧ done = done' :=
  eq_of_nest_eq h.not_void fun more => (h.nest_eq none more).symm.trans (h'.nest_eq none more)

/-- **Tokens leave the same elements open**, however they are taken apart. -/
theorem Opens.unique {tokens : List Token} {es es' : List Element} (h : Opens tokens es)
    (h' : Opens tokens es') : es = es' := by
  have hitems : (tokens.map (Prod.mk 0)).map Prod.snd = tokens := by
    rw [List.map_map]
    exact List.map_id _
  obtain ⟨opened, done, rfl, hstacked⟩ := h.exists_stacked hitems
  obtain ⟨opened', done', rfl, hstacked'⟩ := h'.exists_stacked hitems
  rw [(hstacked.unique hstacked').1]

end Stencil.Token
