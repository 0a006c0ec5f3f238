/-
# Directives that continue no chain

An `@else-if` or `@else` that no chain reached is a fault.  Whether a template has one should be
seen from its directives alone, and not depend on which conditions hold.  This module says when it
does not.

Where a chain is resolved, two things can happen to an alternative behind an `@else` of the same
chain.  If the chain has chosen an element before the `@else`, all alternatives behind it are taken
out, one behind the `@else` like the others.  If the chain chooses the `@else`, nothing behind it is
looked at, and an alternative there is found later, as one that continues no chain.  So

* if an alternative stands behind an element outside any chain, or at the beginning (`Orphaned`),
  rendering fails whatever the conditions are;
* if not, and no alternative stands behind an `@else` (`ElseLast`), no directive is a fault,
  whatever the conditions are;
* in all other cases no directive is a fault if all conditions hold, and one is if none holds.

The first two are all templates whose outcome does not depend on conditions
(`Engine.dangling_alike_iff`).

Each of the three is that of a property of the trees which are still to be rendered, which settling
a chain keeps for the trees that are left (`Doomed`, `Steady`).
-/
import Stencil.Proofs.Rendering.Locality
import Stencil.Proofs.Rendering.NormalForm

namespace Stencil

/-- The fault is that of a directive that continues no chain. -/
def RenderFault.IsDangling : RenderFault → Prop
  | danglingOtherwise _ => True
  | danglingOrWhen _ _ => True
  | _ => False

/-- The directive with another condition. -/
def Branch.withCondition (condition : Text) : Branch → Branch
  | when _ => when condition
  | orWhen _ => orWhen condition
  | otherwise => otherwise

/-- The element with another condition. -/
def Element.withCondition (condition : Text) (e : Element) : Element :=
  { e with branch := e.branch.map (Branch.withCondition condition) }

namespace Tree

/-- The directive of a chain that the tree carries at its top. -/
def branch? (t : Tree) : Option Branch := t.kind.element?.bind Element.branch

/-- The tree with another condition at its top. -/
def withCondition (condition : Text) (t : Tree) : Tree :=
  t.mapElement (Element.withCondition condition)

/-- Two lists of trees are the same but for the conditions at their tops. -/
def Alike (ts ts' : List Tree) : Prop :=
  ts.map (withCondition []) = ts'.map (withCondition [])

end Tree

namespace Siblings

open Stencil.Tree

/-! ## 1. Chains as they are written -/

/-- An alternative stands where no chain is open.  Behind an `@else` the chain counts as open. -/
def Orphaned : (opened : Bool) → List Tree → Prop
  | _, [] => False
  | opened, t :: rest =>
    match t.kind.element? with
    | none => Orphaned opened rest
    | some e =>
      match e.branch with
      | none => Orphaned false rest
      | some (.when _) => Orphaned true rest
      | some _ => opened = false ∨ Orphaned true rest

/-- No alternative stands behind an `@else`, with nothing but text between them. -/
def ElseLast : List Tree → Prop
  | [] => True
  | t :: rest => (t.branch? = some .otherwise → Fresh rest) ∧ ElseLast rest

/-- Each directive that has a condition has one that holds, or each has one that does not. -/
def Conditions (holds : Bool) (ts : List Tree) : Prop :=
  ∀ t ∈ ts, ∀ branch condition, t.branch? = some branch → branch.condition? = some condition →
    condition.holds = holds

/-- What is left to render will come to an alternative that continues no chain. -/
def Doomed (ts : List Tree) : Prop :=
  Orphaned false ts ∨ ¬ ElseLast ts ∧ Conditions false ts

/-- What is left to render will come to no such alternative. -/
def Steady (ts : List Tree) : Prop :=
  ¬ Orphaned false ts ∧ (ElseLast ts ∨ Conditions true ts)

section Trees

variable {t : Tree} {ts : List Tree} {e : Element} {opened holds : Bool}

theorem branch?_of_none (ht : t.kind.element? = none) : t.branch? = none := by
  rw [branch?, ht]
  rfl

theorem branch?_of_some (ht : t.kind.element? = some e) : t.branch? = e.branch := by
  rw [branch?, ht]
  rfl

theorem orphaned_cons_of_none (ht : t.kind.element? = none) :
    Orphaned opened (t :: ts) ↔ Orphaned opened ts := by
  rw [Orphaned, ht]

theorem orphaned_cons_of_some (ht : t.kind.element? = some e) : Orphaned opened (t :: ts) ↔
    match e.branch with
    | none => Orphaned false ts
    | some (.when _) => Orphaned true ts
    | some _ => opened = false ∨ Orphaned true ts := by
  rw [Orphaned, ht]

/-- An alternative is an orphan where no chain is open; behind it one counts as open. -/
theorem orphaned_cons_of_continues (ht : t.kind.element? = some e)
    (hcontinues : e.continuesChain = true) :
    Orphaned opened (t :: ts) ↔ opened = false ∨ Orphaned true ts := by
  rw [orphaned_cons_of_some ht]
  obtain hbranch | ⟨condition, hbranch⟩ := Element.continuesChain_eq_true.mp hcontinues
  · rw [hbranch]
  · rw [hbranch]

/-- Behind what is no alternative, a chain is open if there is an `@if`. -/
theorem orphaned_cons_of_stops (ht : t.kind.element? = some e)
    (hstops : e.continuesChain = false) :
    Orphaned opened (t :: ts) ↔ Orphaned e.branch.isSome ts := by
  rw [orphaned_cons_of_some ht]
  obtain hbranch | ⟨condition, hbranch⟩ := Element.continuesChain_eq_false.mp hstops
  · rw [hbranch, Option.isSome_none]
  · rw [hbranch, Option.isSome_some]

/-- Where a chain is open, fewer alternatives are orphans. -/
theorem Orphaned.closed (h : Orphaned true ts) : Orphaned false ts := by
  induction ts with
  | nil => exact h
  | cons t ts ih =>
    cases ht : t.kind.element? with
    | none =>
      rw [orphaned_cons_of_none ht] at h ⊢
      exact ih h
    | some e =>
      cases hcontinues : e.continuesChain with
      | true => exact (orphaned_cons_of_continues ht hcontinues).mpr (Or.inl rfl)
      | false =>
        rw [orphaned_cons_of_stops ht hcontinues] at h ⊢
        exact h

/-- Where no alternative comes first, it does not matter whether a chain is open. -/
theorem Orphaned.opened_of_fresh (hfresh : Fresh ts) (h : Orphaned false ts) :
    Orphaned true ts := by
  induction ts with
  | nil => exact h
  | cons t ts ih =>
    cases ht : t.kind.element? with
    | none =>
      rw [orphaned_cons_of_none ht] at h ⊢
      exact ih ((fresh_cons_of_none ht).mp hfresh) h
    | some e =>
      have hstops := (fresh_cons_of_some ht).mp hfresh
      rw [orphaned_cons_of_stops ht hstops] at h ⊢
      exact h

/-- What does not begin afresh begins with an alternative. -/
theorem orphaned_of_not_fresh (h : ¬ Fresh ts) : Orphaned false ts := by
  induction ts with
  | nil => exact absurd trivial h
  | cons t ts ih =>
    cases ht : t.kind.element? with
    | none =>
      rw [fresh_cons_of_none ht] at h
      exact (orphaned_cons_of_none ht).mpr (ih h)
    | some e =>
      rw [fresh_cons_of_some ht, Bool.not_eq_false] at h
      exact (orphaned_cons_of_continues ht h).mpr (Or.inl rfl)

theorem elseLast_cons_of_ne (h : t.branch? ≠ some .otherwise) :
    ElseLast (t :: ts) ↔ ElseLast ts := by
  rw [ElseLast]
  exact and_iff_right fun heq => absurd heq h

theorem elseLast_cons_of_none (ht : t.kind.element? = none) :
    ElseLast (t :: ts) ↔ ElseLast ts :=
  elseLast_cons_of_ne (by simp [branch?_of_none ht])

theorem Conditions.tail (h : Conditions holds (t :: ts)) : Conditions holds ts :=
  fun s hs => h s (List.mem_cons_of_mem t hs)

theorem conditions_cons_of_none (ht : t.branch? = none) :
    Conditions holds (t :: ts) ↔ Conditions holds ts := by
  constructor
  · exact Conditions.tail
  · intro h s hs branch condition hbranch
    rcases List.mem_cons.mp hs with rfl | hs
    · exact absurd (ht.symm.trans hbranch) nofun
    · exact h s hs branch condition hbranch

theorem Conditions.head (h : Conditions holds (t :: ts)) {branch : Branch} {condition : Text}
    (hbranch : t.branch? = some branch) (hcondition : branch.condition? = some condition) :
    condition.holds = holds :=
  h t List.mem_cons_self branch condition hbranch hcondition

/-- An element that was chosen is outside any chain. -/
theorem element?_withoutBranch (ht : t.kind.element? = some e) :
    (t.mapElement Element.withoutBranch).kind.element? = some e.withoutBranch := by
  obtain ⟨children, rfl⟩ := Render.eq_node_of_element? ht
  rfl

theorem branch?_withoutBranch (t : Tree) :
    (t.mapElement Element.withoutBranch).branch? = none := by
  obtain ⟨kind, children⟩ := t
  cases kind <;> rfl

end Trees

/-! ## 2. What a chain leaves -/

section Chains

variable {ts left : List Tree} {t : Tree} {e : Element} {stays holds : Bool}

/-- Behind an element that was chosen, the orphans are those of an open chain. -/
theorem orphaned_afterChosen : Orphaned false (afterChosen ts) ↔ Orphaned true ts := by
  induction ts with
  | nil => rfl
  | cons t ts ih =>
    rw [afterChosen]
    cases ht : t.kind.element? with
    | none =>
      dsimp only
      rw [orphaned_cons_of_none ht, orphaned_cons_of_none ht]
      exact ih
    | some e =>
      cases hcontinues : e.continuesChain with
      | true => simp [hcontinues, ih, orphaned_cons_of_continues ht hcontinues]
      | false => simp [hcontinues, orphaned_cons_of_stops ht hcontinues]

theorem elseLast_afterChosen (h : ElseLast ts) : ElseLast (afterChosen ts) := by
  induction ts with
  | nil => trivial
  | cons t ts ih =>
    rw [afterChosen]
    cases ht : t.kind.element? with
    | none =>
      exact (elseLast_cons_of_none ht).mpr (ih h.2)
    | some e =>
      dsimp only
      split
      · exact ih h.2
      · exact h

/-- A chain leaves trees that were there, and one at most without the directive that it had. -/
theorem mem_of_mem_afterChosen {s : Tree} (h : s ∈ afterChosen ts) : s ∈ ts := by
  induction ts with
  | nil => exact h
  | cons t ts ih =>
    rw [afterChosen] at h
    split at h
    · exact List.mem_cons.mpr ((List.mem_cons.mp h).imp_right ih)
    · split at h
      · exact List.mem_cons_of_mem t (ih h)
      · exact h

theorem mem_of_mem_afterRejected {s : Tree} (h : s ∈ afterRejected ts) :
    s ∈ ts ∨ s.branch? = none := by
  induction ts with
  | nil => exact Or.inl h
  | cons t ts ih =>
    rw [afterRejected] at h
    split at h
    · rcases List.mem_cons.mp h with rfl | h
      · exact Or.inl List.mem_cons_self
      · exact (ih h).imp_left (List.mem_cons_of_mem t)
    · split at h
      · rcases List.mem_cons.mp h with rfl | h
        · exact Or.inr (branch?_withoutBranch t)
        · exact Or.inl (List.mem_cons_of_mem t h)
      · split at h
        · rcases List.mem_cons.mp h with rfl | h
          · exact Or.inr (branch?_withoutBranch t)
          · exact Or.inl (List.mem_cons_of_mem t (mem_of_mem_afterChosen h))
        · exact (ih h).imp_left (List.mem_cons_of_mem t)
      · exact Or.inl h

theorem mem_of_settle (h : settle e ts = .ok (stays, left)) {s : Tree} (hs : s ∈ left) :
    s ∈ ts ∨ s.branch? = none := by
  obtain ⟨-, -, rfl⟩ | ⟨condition, -, -, rfl⟩ := settle_eq_ok.mp h
  · exact Or.inl hs
  · split at hs
    · exact Or.inl (mem_of_mem_afterChosen hs)
    · exact mem_of_mem_afterRejected hs

theorem Conditions.of_settle (hts : Conditions holds ts) (h : settle e ts = .ok (stays, left)) :
    Conditions holds left := by
  intro s hs branch condition hbranch hcondition
  rcases mem_of_settle h hs with hs | hnone
  · exact hts s hs branch condition hbranch hcondition
  · exact absurd (hnone.symm.trans hbranch) nofun

theorem orphaned_chosen (ht : t.kind.element? = some e) :
    Orphaned false (t.mapElement Element.withoutBranch :: ts) ↔ Orphaned false ts :=
  orphaned_cons_of_some (element?_withoutBranch ht)

theorem elseLast_chosen (t : Tree) :
    ElseLast (t.mapElement Element.withoutBranch :: ts) ↔ ElseLast ts :=
  elseLast_cons_of_ne (by simp [branch?_withoutBranch])

/-- Behind an element that was not chosen, what was an orphan of the open chain stays one. -/
theorem orphaned_afterRejected (h : Orphaned true ts) : Orphaned false (afterRejected ts) := by
  induction ts with
  | nil => exact h
  | cons t ts ih =>
    rw [afterRejected]
    cases ht : t.kind.element? with
    | none =>
      rw [orphaned_cons_of_none ht] at h
      exact (orphaned_cons_of_none ht).mpr (ih h)
    | some e =>
      have hclosed := h.closed
      rw [orphaned_cons_of_some ht] at h
      dsimp only
      cases hb : e.branch with
      | none => exact hclosed
      | some branch =>
        rw [hb] at h
        cases branch with
        | when condition => exact hclosed
        | otherwise => exact (orphaned_chosen ht).mpr (h.resolve_left Bool.noConfusion).closed
        | orWhen condition =>
          have hrest : Orphaned true ts := h.resolve_left Bool.noConfusion
          dsimp only
          split
          · exact (orphaned_chosen ht).mpr (orphaned_afterChosen.mpr hrest)
          · exact ih hrest

/-- If no alternative stands behind an `@else`, nothing else becomes an orphan. -/
theorem orphaned_of_afterRejected (hlast : ElseLast ts) (h : Orphaned false (afterRejected ts)) :
    Orphaned true ts := by
  induction ts with
  | nil => exact h
  | cons t ts ih =>
    rw [afterRejected] at h
    cases ht : t.kind.element? with
    | none =>
      rw [ht] at h
      exact (orphaned_cons_of_none ht).mpr (ih hlast.2 ((orphaned_cons_of_none ht).mp h))
    | some e =>
      have hbranch := branch?_of_some ht
      rw [ht] at h
      rw [orphaned_cons_of_some ht]
      dsimp only at h
      cases hb : e.branch with
      | none =>
        rw [hb] at h
        simpa only [orphaned_cons_of_some ht, hb] using h
      | some branch =>
        rw [hb] at h
        cases branch with
        | when condition => simpa only [orphaned_cons_of_some ht, hb] using h
        | otherwise =>
          have hfresh := hlast.1 (hbranch.trans hb)
          exact Or.inr (((orphaned_chosen ht).mp h).opened_of_fresh hfresh)
        | orWhen condition =>
          dsimp only at h
          split at h
          · exact Or.inr (orphaned_afterChosen.mp ((orphaned_chosen ht).mp h))
          · exact Or.inr (ih hlast.2 h)

theorem elseLast_afterRejected (h : ElseLast ts) : ElseLast (afterRejected ts) := by
  induction ts with
  | nil => trivial
  | cons t ts ih =>
    rw [afterRejected]
    split
    · next ht =>
      exact (elseLast_cons_of_none ht).mpr (ih h.2)
    · split
      · exact (elseLast_chosen t).mpr h.2
      · split
        · exact (elseLast_chosen t).mpr (elseLast_afterChosen h.2)
        · exact ih h.2
      · exact h

/-- If no condition holds, an `@else` is chosen, and an alternative behind it becomes an orphan. -/
theorem breaks_afterRejected (hlast : ¬ ElseLast ts) (hfails : Conditions false ts) :
    Orphaned false (afterRejected ts) ∨ ¬ ElseLast (afterRejected ts) := by
  induction ts with
  | nil => exact absurd trivial hlast
  | cons t ts ih =>
    rw [afterRejected]
    cases ht : t.kind.element? with
    | none =>
      rw [elseLast_cons_of_none ht] at hlast
      dsimp only
      rw [orphaned_cons_of_none ht, elseLast_cons_of_none ht]
      exact ih hlast hfails.tail
    | some e =>
      have hbranch := branch?_of_some ht
      dsimp only
      cases hb : e.branch with
      | none => exact Or.inr hlast
      | some branch =>
        cases branch with
        | when condition => exact Or.inr hlast
        | otherwise =>
          dsimp only
          rw [orphaned_chosen ht, elseLast_chosen]
          by_cases hfresh : Fresh ts
          · exact Or.inr fun hrest => hlast ⟨fun _ => hfresh, hrest⟩
          · exact Or.inl (orphaned_of_not_fresh hfresh)
        | orWhen condition =>
          have hfalse := hfails.head (hbranch.trans hb) rfl
          have hne : t.branch? ≠ some .otherwise := by simp [hbranch, hb]
          rw [elseLast_cons_of_ne hne] at hlast
          dsimp only
          rw [if_neg (by simp [hfalse])]
          exact ih hlast hfails.tail

/-- **What a chain leaves is doomed**, if what it was settled in is. -/
theorem Doomed.of_settle (ht : t.kind.element? = some e) (h : Doomed (t :: ts))
    (hsettle : settle e ts = .ok (stays, left)) : Doomed left := by
  have hbranch := branch?_of_some ht
  have hconditions := fun hts : Conditions false ts => hts.of_settle hsettle
  obtain ⟨hb, -, rfl⟩ | ⟨condition, hb, -, rfl⟩ := settle_eq_ok.mp hsettle
  · have hne : t.branch? ≠ some .otherwise := by simp [hbranch, hb]
    rw [Doomed, orphaned_cons_of_some ht, hb, elseLast_cons_of_ne hne] at h
    exact h.imp_right (And.imp_right Conditions.tail)
  · have hne : t.branch? ≠ some .otherwise := by simp [hbranch, hb]
    rw [Doomed, orphaned_cons_of_some ht, hb, elseLast_cons_of_ne hne] at h
    rcases h with horphaned | ⟨hlast, hfails⟩
    · split
      · exact Or.inl (orphaned_afterChosen.mpr horphaned)
      · exact Or.inl (orphaned_afterRejected horphaned)
    · have hfalse := hfails.head (hbranch.trans hb) rfl
      simp only [hfalse, Bool.false_eq_true, if_false] at hconditions ⊢
      exact (breaks_afterRejected hlast hfails.tail).imp_right fun hlast' =>
        ⟨hlast', hconditions hfails.tail⟩

/-- **A chain in what is steady is settled, and what it leaves is steady.** -/
theorem Steady.exists_settle (ht : t.kind.element? = some e) (h : Steady (t :: ts)) :
    ∃ stays left, settle e ts = .ok (stays, left) ∧ Steady left := by
  have hbranch := branch?_of_some ht
  obtain ⟨horphaned, hsafe⟩ := h
  rw [orphaned_cons_of_some ht] at horphaned
  cases hsettle : settle e ts with
  | error fault =>
    obtain ⟨hb, -⟩ | ⟨condition, hb, -⟩ := settle_eq_error.mp hsettle
    · simp [hb] at horphaned
    · simp [hb] at horphaned
  | ok result =>
    obtain ⟨stays, left⟩ := result
    refine ⟨stays, left, rfl, ?_⟩
    have hall := fun hts : Conditions true ts => hts.of_settle hsettle
    obtain ⟨hb, -, rfl⟩ | ⟨condition, hb, -, rfl⟩ := settle_eq_ok.mp hsettle
    · rw [hb] at horphaned
      exact ⟨horphaned, hsafe.imp And.right Conditions.tail⟩
    · rw [hb] at horphaned
      cases hholds : condition.holds with
      | true =>
        simp only [hholds, if_true] at hall ⊢
        exact ⟨fun hleft => horphaned (orphaned_afterChosen.mp hleft),
          hsafe.imp (fun hlast => elseLast_afterChosen hlast.2) fun hts => hall hts.tail⟩
      | false =>
        simp only [Bool.false_eq_true, if_false]
        rcases hsafe with hlast | hts
        · exact ⟨fun hleft => horphaned (orphaned_of_afterRejected hlast.2 hleft),
            Or.inl (elseLast_afterRejected hlast.2)⟩
        · exact absurd ((hts.head (hbranch.trans hb) rfl).symm.trans hholds) Bool.noConfusion

theorem isDangling_of_settle {fault : RenderFault} (h : settle e ts = .error fault) :
    fault.IsDangling := by
  obtain ⟨-, rfl⟩ | ⟨condition, -, rfl⟩ := settle_eq_error.mp h
  · trivial
  · trivial

end Chains

/-! ## 3. Trees with directives at their tops only -/

/-- The node is no usage of a component, and nothing right below it carries a directive of a
chain. -/
def Calm (l : Library) (kind : NodeKind) (children : List Tree) : Prop :=
  (∀ e, kind = .element e → l.lookup e.name = none) ∧ ∀ t ∈ children, t.branch? = none

/-- The outcome is the fault of a directive that continues no chain. -/
def Dangles {α : Type} (r : Except RenderFault α) : Prop :=
  ∃ fault, r = .error fault ∧ fault.IsDangling

theorem dangles_map {α β : Type} (f : α → β) (r : Except RenderFault α) :
    Dangles (r.map f) ↔ Dangles r := by
  cases r with
  | error fault =>
    constructor
    · rintro ⟨_, heq, hdangling⟩
      exact ⟨fault, rfl, Except.error.inj heq ▸ hdangling⟩
    · rintro ⟨_, heq, hdangling⟩
      exact ⟨fault, rfl, Except.error.inj heq ▸ hdangling⟩
  | ok a =>
    constructor
    · rintro ⟨_, heq, -⟩
      exact absurd heq nofun
    · rintro ⟨_, heq, -⟩
      exact absurd heq nofun

section Render

variable {l : Library} {expand : Expansion} {ts ts' : List Tree}

theorem unbranched_calm (l : Library) : Unbranched (Calm l) := by
  rintro e children ⟨hlookup, hbare⟩
  refine ⟨?_, hbare⟩
  rintro _ ⟨⟩
  exact hlookup e rfl

/-- Trees without directives are steady. -/
theorem steady_of_bare (h : ∀ t ∈ ts, t.branch? = none) : Steady ts := by
  suffices hts : ¬ Orphaned false ts ∧ ElseLast ts from ⟨hts.1, Or.inl hts.2⟩
  induction ts with
  | nil => exact ⟨id, trivial⟩
  | cons t ts ih =>
    obtain ⟨horphaned, hlast⟩ := ih fun s hs => h s (List.mem_cons_of_mem t hs)
    have hbranch := h t List.mem_cons_self
    have hne : t.branch? ≠ some .otherwise := by simp [hbranch]
    refine ⟨?_, (elseLast_cons_of_ne hne).mpr hlast⟩
    cases ht : t.kind.element? with
    | none => rwa [orphaned_cons_of_none ht]
    | some e => rwa [orphaned_cons_of_some ht, ← branch?_of_some ht, hbranch]

/-- **What is steady renders.** -/
theorem exists_render_of_steady {ts : List Tree} (hcalm : EachAll (Calm l) ts) (h : Steady ts) :
    ∃ out, render l expand ts = .ok out := by
  match ts with
  | [] => exact ⟨[], render_nil⟩
  | .node kind children :: behind =>
    obtain ⟨⟨⟨hlookup, hbare⟩, hchildren⟩, hbehind⟩ := hcalm
    cases kind with
    | element e =>
      obtain ⟨stays, left, hsettle, hleft⟩ := h.exists_settle rfl
      have hcalm := eachAll_of_settle (unbranched_calm l) hsettle hbehind
      obtain ⟨out, hout⟩ := exists_render_of_steady hcalm hleft
      obtain ⟨inside, hinside⟩ := exists_render_of_steady hchildren (steady_of_bare hbare)
      rw [render_of_settle hsettle, hout]
      cases stays with
      | false => exact ⟨out, rfl⟩
      | true =>
        rw [replaced, placed, hlookup e rfl]
        dsimp only
        rw [hinside]
        exact ⟨_, rfl⟩
    | _ =>
      obtain ⟨horphaned, hsafe⟩ := h
      rw [orphaned_cons_of_none rfl] at horphaned
      obtain ⟨out, hout⟩ := exists_render_of_steady hbehind
        ⟨horphaned, hsafe.imp And.right Conditions.tail⟩
      rw [render_of_none rfl, hout]
      exact ⟨_, rfl⟩
termination_by sizeAll ts
decreasing_by
  all_goals simp only [sizeAll_cons, size_node]
  all_goals first
    | omega
    | have := sizeAll_of_settle hsettle; omega

/-- **What is doomed fails, with the fault of a directive that continues no chain.** -/
theorem dangles_of_doomed {ts : List Tree} (hcalm : EachAll (Calm l) ts) (h : Doomed ts) :
    Dangles (render l expand ts) := by
  match ts with
  | [] => exact absurd h (not_or.mpr ⟨id, fun hbreaks => hbreaks.1 trivial⟩)
  | .node kind children :: behind =>
    obtain ⟨⟨⟨hlookup, hbare⟩, hchildren⟩, hbehind⟩ := hcalm
    cases kind with
    | element e =>
      cases hsettle : settle e behind with
      | error fault =>
        rw [render_element, hsettle]
        exact ⟨fault, rfl, isDangling_of_settle hsettle⟩
      | ok result =>
        obtain ⟨stays, left⟩ := result
        have hcalm := eachAll_of_settle (unbranched_calm l) hsettle hbehind
        obtain ⟨fault, hfault, hdangling⟩ :=
          dangles_of_doomed hcalm (h.of_settle rfl hsettle)
        obtain ⟨inside, hinside⟩ := exists_render_of_steady hchildren (steady_of_bare hbare)
        refine ⟨fault, ?_, hdangling⟩
        rw [render_of_settle hsettle, hfault]
        cases stays with
        | false => rfl
        | true =>
          rw [replaced, placed, hlookup e rfl]
          dsimp only
          rw [hinside]
          rfl
    | _ =>
      rw [Doomed, orphaned_cons_of_none rfl, elseLast_cons_of_none rfl,
        conditions_cons_of_none rfl] at h
      obtain ⟨fault, hfault, hdangling⟩ := dangles_of_doomed hbehind h
      exact ⟨fault, by rw [render_of_none rfl, hfault]; rfl, hdangling⟩
termination_by sizeAll ts
decreasing_by
  all_goals simp only [sizeAll_cons, size_node]
  all_goals first
    | omega
    | have := sizeAll_of_settle hsettle; omega

theorem not_dangles_of_steady (hcalm : EachAll (Calm l) ts) (h : Steady ts) :
    ¬ Dangles (render l expand ts) := by
  rintro ⟨fault, hfault, -⟩
  obtain ⟨out, hout⟩ := exists_render_of_steady hcalm h
  exact absurd (hout.symm.trans hfault) nofun

/-! ## 4. Other conditions -/

theorem element?_withCondition (condition : Text) (t : Tree) :
    (t.withCondition condition).kind.element? =
      t.kind.element?.map (Element.withCondition condition) := by
  obtain ⟨kind, children⟩ := t
  cases kind <;> rfl

theorem element?_withCondition_of_none {t : Tree} (condition : Text)
    (ht : t.kind.element? = none) : (t.withCondition condition).kind.element? = none := by
  rw [element?_withCondition, ht]
  rfl

theorem element?_withCondition_of_some {t : Tree} {e : Element} (condition : Text)
    (ht : t.kind.element? = some e) :
    (t.withCondition condition).kind.element? = some (e.withCondition condition) := by
  rw [element?_withCondition, ht]
  rfl

theorem branch_withCondition (condition : Text) (e : Element) :
    (e.withCondition condition).branch = e.branch.map (Branch.withCondition condition) := rfl

theorem branch?_withCondition (condition : Text) (t : Tree) :
    (t.withCondition condition).branch? = t.branch?.map (Branch.withCondition condition) := by
  obtain ⟨kind, children⟩ := t
  cases kind <;> rfl

theorem continuesChain_withCondition (condition : Text) (e : Element) :
    (e.withCondition condition).continuesChain = e.continuesChain := by
  rw [Element.continuesChain, Element.continuesChain, branch_withCondition]
  cases e.branch with
  | none => rfl
  | some branch => cases branch <;> rfl

theorem fresh_map (condition : Text) :
    Fresh (ts.map (withCondition condition)) ↔ Fresh ts := by
  induction ts with
  | nil => rfl
  | cons t ts ih =>
    rw [List.map_cons]
    cases ht : t.kind.element? with
    | none =>
      rw [fresh_cons_of_none ht, fresh_cons_of_none (element?_withCondition_of_none condition ht),
        ih]
    | some e =>
      rw [fresh_cons_of_some ht, fresh_cons_of_some (element?_withCondition_of_some condition ht),
        continuesChain_withCondition]

theorem orphaned_map (condition : Text) {opened : Bool} :
    Orphaned opened (ts.map (withCondition condition)) ↔ Orphaned opened ts := by
  induction ts generalizing opened with
  | nil => rfl
  | cons t ts ih =>
    rw [List.map_cons]
    cases ht : t.kind.element? with
    | none =>
      rw [orphaned_cons_of_none ht,
        orphaned_cons_of_none (element?_withCondition_of_none condition ht), ih]
    | some e =>
      have ht' := element?_withCondition_of_some condition ht
      have hchain := continuesChain_withCondition condition e
      cases hcontinues : e.continuesChain with
      | true =>
        rw [orphaned_cons_of_continues ht hcontinues,
          orphaned_cons_of_continues ht' (hchain.trans hcontinues), ih]
      | false =>
        rw [orphaned_cons_of_stops ht hcontinues,
          orphaned_cons_of_stops ht' (hchain.trans hcontinues), branch_withCondition,
          Option.isSome_map, ih]

theorem elseLast_map (condition : Text) :
    ElseLast (ts.map (withCondition condition)) ↔ ElseLast ts := by
  induction ts with
  | nil => rfl
  | cons t ts ih =>
    have hiff : t.branch?.map (Branch.withCondition condition) = some .otherwise ↔
        t.branch? = some .otherwise := by
      match t.branch? with
      | none => simp
      | some (.when _) => simp [Branch.withCondition]
      | some (.orWhen _) => simp [Branch.withCondition]
      | some .otherwise => simp [Branch.withCondition]
    rw [List.map_cons, ElseLast, ElseLast, branch?_withCondition, hiff, fresh_map, ih]

theorem conditions_map {condition : Text} {holds : Bool} (h : condition.holds = holds) :
    Conditions holds (ts.map (withCondition condition)) := by
  intro s hs branch other hbranch hother
  obtain ⟨t, -, rfl⟩ := List.mem_map.mp hs
  rw [branch?_withCondition] at hbranch
  match t.branch?, hbranch with
  | some (.when _), hbranch =>
    obtain rfl := Option.some.inj hbranch
    exact Option.some.inj hother ▸ h
  | some (.orWhen _), hbranch =>
    obtain rfl := Option.some.inj hbranch
    exact Option.some.inj hother ▸ h
  | some .otherwise, hbranch =>
    obtain rfl := Option.some.inj hbranch
    exact absurd hother nofun

theorem calm_map (condition : Text) :
    EachAll (Calm l) (ts.map (withCondition condition)) ↔ EachAll (Calm l) ts := by
  have htree : ∀ t : Tree, (t.withCondition condition).Each (Calm l) ↔ t.Each (Calm l) := by
    rintro ⟨kind, children⟩
    refine and_congr_left fun _ => and_congr_left fun _ => ?_
    cases kind with
    | element e =>
      constructor
      · rintro h _ ⟨⟩
        exact h (e.withCondition condition) rfl
      · rintro h _ ⟨⟩
        exact h e rfl
    | _ => rfl
  simp only [eachAll_iff, List.mem_map, forall_exists_index, and_imp, forall_apply_eq_imp_iff₂,
    htree]

theorem alike_map (condition : Text) (ts : List Tree) :
    Alike ts (ts.map (withCondition condition)) := by
  rw [Alike, List.map_map]
  refine List.map_congr_left fun t _ => ?_
  obtain ⟨kind, children⟩ := t
  cases kind with
  | element e =>
    obtain ⟨name, declares, branch, attributes, selfClosing⟩ := e
    match branch with
    | none => rfl
    | some (.when _) => rfl
    | some (.orWhen _) => rfl
    | some .otherwise => rfl
  | _ => rfl

/-- What does not look at conditions is the same for trees that are the same but for these. -/
theorem iff_of_alike {P : List Tree → Prop}
    (hmap : ∀ ss : List Tree, P (ss.map (withCondition [])) ↔ P ss) (h : Alike ts ts') :
    P ts ↔ P ts' := by
  rw [← hmap ts, h, hmap]

/-- **The outcome depends on no condition** if and only if no alternative stands behind an `@else`,
or one stands where no chain is open. -/
theorem dangles_alike_iff (hcalm : EachAll (Calm l) ts) :
    (∀ ts', Alike ts ts' → (Dangles (render l expand ts) ↔ Dangles (render l expand ts'))) ↔
      ElseLast ts ∨ Orphaned false ts := by
  constructor
  · intro h
    by_contra hcond
    obtain ⟨hlast, horphaned⟩ := not_or.mp hcond
    have hfalse : Text.holds [] = false := by decide
    have htrue : Text.holds ['1'] = true := by decide
    have hfails : Dangles (render l expand (ts.map (withCondition []))) :=
      dangles_of_doomed ((calm_map []).mpr hcalm)
        (Or.inr ⟨mt (elseLast_map []).mp hlast, conditions_map hfalse⟩)
    have hholds : ¬ Dangles (render l expand (ts.map (withCondition ['1']))) :=
      not_dangles_of_steady ((calm_map ['1']).mpr hcalm)
        ⟨mt (orphaned_map ['1']).mp horphaned, Or.inr (conditions_map htrue)⟩
    exact hholds ((h _ (alike_map ['1'] ts)).mp ((h _ (alike_map [] ts)).mpr hfails))
  · intro hcond ts' halike
    have hcalm' := (iff_of_alike (fun _ => calm_map []) halike).mp hcalm
    have horphaned := iff_of_alike (P := Orphaned false) (fun _ => orphaned_map []) halike
    have hlast := iff_of_alike (P := ElseLast) (fun _ => elseLast_map []) halike
    by_cases h : Orphaned false ts
    · exact iff_of_true (dangles_of_doomed hcalm (Or.inl h))
        (dangles_of_doomed hcalm' (Or.inl (horphaned.mp h)))
    · have hsafe := hcond.resolve_right h
      exact iff_of_false (not_dangles_of_steady hcalm ⟨h, Or.inl hsafe⟩)
        (not_dangles_of_steady hcalm' ⟨mt horphaned.mpr h, Or.inl (hlast.mp hsafe)⟩)

end Render

end Siblings

/-! ## 5. Templates -/

namespace Engine

open Siblings

variable {e : Engine}

/-- Renders trees that were read already. -/
def renderTrees (e : Engine) (ts : List Tree) : Except RenderFault Document :=
  Render.visitDocument e.library
    (Render.bodiesAt e.library e.settings.maxDepth e.settings.maxDepth.toNat) (.ofTrees ts)

/-- The answer of an engine to the usages in a template. -/
def expansion (e : Engine) : Expansion :=
  expansionAt e.library e.settings.maxDepth e.settings.maxDepth.toNat

theorem dangles_renderTrees_iff (ts : List Tree) :
    Dangles (e.renderTrees ts) ↔ Dangles (Siblings.render e.library e.expansion ts) := by
  have houtcome : Render.SourceOutcome (Siblings.render e.library e.expansion ts)
      (e.renderTrees ts) :=
    Render.visitDocument_outcome (Render.answers_bodiesAt _ _ _) ts
  rw [← houtcome.map_trees, dangles_map]

theorem dangles_render_iff {source : Text} {d : Document}
    (hparse : Document.parse source = .ok d) :
    Dangles (e.render source) ↔ Dangles (Siblings.render e.library e.expansion d.trees) := by
  obtain ⟨ts, hts, rfl⟩ := exists_of_map_eq_ok hparse
  rw [render_eq, dangles_map, renderSource_eq, renderWith, hts, Document.trees_ofTrees]
  rfl

/-- **Whether a directive continues no chain depends on no condition** if and only if no alternative
stands behind an `@else`, or one stands where no chain is open.  The template has directives at the
top only and no usages, and it is compared with all templates, and all lists of trees, that are the
same but for the conditions. -/
theorem dangling_alike_iff {source : Text} {d : Document} (hparse : Document.parse source = .ok d)
    (hcalm : Tree.EachAll (Calm e.library) d.trees) :
    ((∀ source' d', Document.parse source' = .ok d' → Tree.Alike d.trees d'.trees →
        (Dangles (e.render source) ↔ Dangles (e.render source'))) ∧
      ∀ ts', Tree.Alike d.trees ts' → (Dangles (e.render source) ↔ Dangles (e.renderTrees ts'))) ↔
      ElseLast d.trees ∨ Orphaned false d.trees := by
  have hiff : (∀ ts', Tree.Alike d.trees ts' →
      (Dangles (Siblings.render e.library e.expansion d.trees) ↔
        Dangles (Siblings.render e.library e.expansion ts'))) ↔
      ElseLast d.trees ∨ Orphaned false d.trees := dangles_alike_iff hcalm
  rw [← hiff, dangles_render_iff hparse]
  constructor
  · rintro ⟨-, htrees⟩ ts' halike
    rw [htrees ts' halike, dangles_renderTrees_iff]
  · intro h
    refine ⟨fun source' d' hparse' halike => ?_, fun ts' halike => ?_⟩
    · rw [h d'.trees halike, dangles_render_iff hparse']
    · rw [h ts' halike, dangles_renderTrees_iff]

/-- A chain of an `@if` whose condition is given and an `@else`. -/
def pairSample (condition : Text) : List Tree :=
  [.leaf (.element ⟨['a'], none, some (.when condition), [], true⟩),
    .leaf (.element ⟨['b'], none, some .otherwise, [], true⟩)]

theorem dangling_pairSample :
    Document.parse "<a @if=0/><b @else/>".toList = .ok (.ofTrees (pairSample ['0'])) ∧
      Tree.EachAll (Calm .empty) (Document.ofTrees (pairSample ['0'])).trees ∧
      ElseLast (Document.ofTrees (pairSample ['0'])).trees ∧
      ∀ source' d', Document.parse source' = .ok d' →
        Tree.Alike (Document.ofTrees (pairSample ['0'])).trees d'.trees →
        (Dangles (render {} "<a @if=0/><b @else/>".toList) ↔ Dangles (render {} source')) := by
  have hparse : Document.parse "<a @if=0/><b @else/>".toList =
      .ok (.ofTrees (pairSample ['0'])) := by decide +kernel
  have hcalm : Tree.EachAll (Calm .empty) (Document.ofTrees (pairSample ['0'])).trees := by
    rw [Document.trees_ofTrees]
    simp [pairSample, Tree.EachAll, Tree.Each, Tree.leaf, Calm, Library.lookup, Library.empty]
  have hlast : ElseLast (Document.ofTrees (pairSample ['0'])).trees := by
    rw [Document.trees_ofTrees]
    simp [pairSample, ElseLast, Tree.branch?, Tree.leaf, Tree.kind, NodeKind.element?, Fresh]
  exact ⟨hparse, hcalm, hlast, ((dangling_alike_iff hparse hcalm).mpr (Or.inl hlast)).1⟩

/-- The same with a second `@else`: `<a @if=1/><b @else/><c @else/>`. -/
def twiceSample (condition : Char) : Text :=
  "<a @if=".toList ++ condition :: "/><b @else/><c @else/>".toList

/-- The second `@else`. -/
def secondElse : Tree := .leaf (.element ⟨['c'], none, some .otherwise, [], true⟩)

/-- The second `@else` is taken out where the `@if` holds, and is a fault where it does not. -/
theorem not_dangling_alike_twice :
    ∃ d d', Document.parse (twiceSample '1') = .ok d ∧ Document.parse (twiceSample '0') = .ok d' ∧
      Tree.EachAll (Calm .empty) d.trees ∧ Tree.Alike d.trees d'.trees ∧
      ¬ (Dangles (render {} (twiceSample '1')) ↔ Dangles (render {} (twiceSample '0'))) := by
  refine ⟨.ofTrees (pairSample ['1'] ++ [secondElse]), .ofTrees (pairSample ['0'] ++ [secondElse]),
    ?_, ?_, ?_, ?_, fun hiff => ?_⟩
  · decide +kernel
  · decide +kernel
  · rw [Document.trees_ofTrees]
    simp [pairSample, secondElse, Tree.EachAll, Tree.Each, Tree.leaf, Calm, Library.lookup,
      Library.empty]
  · rw [Document.trees_ofTrees, Document.trees_ofTrees]
    rfl
  · have hholds : render {} (twiceSample '1') = .ok "<a/>".toList := by decide +kernel
    have hfails : render {} (twiceSample '0') = .error (.danglingOtherwise ['c']) := by
      decide +kernel
    obtain ⟨fault, hfault, -⟩ := hiff.mpr ⟨_, hfails, trivial⟩
    cases hholds.symm.trans hfault

end Engine

end Stencil
