/-
# What resolving a chain changes

A chain is the element that opens it and the longest run of elements behind it that continue it;
what is no element between them is passed over.  The first of the chain whose condition holds is
chosen, and an `@else` always holds.  The module says of each node what it is after the chain was
resolved (`settleChain_exact`), and `Pruned` is the form of that: some nodes are out, some have lost
their directive, and everything else is as it was.

The document that is walked along is not the one that the statement is about: elements were taken
out of it already.  Hence the inductions on what is still to be walked carry how the document there
differs from the one at the start, and they read the directives in the latter.  The two agree, since
a directive is only taken off where the walk does not come by again.

The walks go down a list of numbers that was made before the first of them was taken out.  The same
is done by loops that ask for the next element anew after each that was taken out
(`settlesNext_iff`).
-/
import Stencil.Proofs.Rendering.Chains

namespace Stencil

/-- The condition of the directive holds; `@else` has none and always holds. -/
def Branch.holds : Branch → Bool
  | .when condition => condition.holds
  | .orWhen condition => condition.holds
  | .otherwise => true

namespace Document

variable {d e : Document} {p : NodeId}

/-! ## 1. Chains -/

/-- The node continues a chain. -/
def continuesAt (d : Document) (id : NodeId) : Bool := (d.branch? id).any Branch.continuesChain

/-- The directive at the node holds. -/
def holdsAt (d : Document) (id : NodeId) : Bool := (d.branch? id).any Branch.holds

/-- The elements behind a node that continue its chain, up to the first that does not. -/
def alternatives (d : Document) (id : NodeId) : List NodeId :=
  (d.laterElements id).takeWhile d.continuesAt

/-- The chain that a node opens. -/
def chain (d : Document) (id : NodeId) : List NodeId := id :: d.alternatives id

/-- The first of a chain that holds. -/
def chosen? (d : Document) (chain : List NodeId) : Option NodeId := chain.find? d.holdsAt

/-- The elements of a chain that go: those before the first that holds, and those behind it unless
it is an `@else`.  If none holds, all go. -/
def losers (d : Document) (chain : List NodeId) : List NodeId :=
  match chain.dropWhile fun x => !d.holdsAt x with
  | [] => chain
  | s :: behind =>
    (chain.takeWhile fun x => !d.holdsAt x) ++
      if d.branch? s = some .otherwise then [] else behind

section Directive

variable {id : NodeId} {branch : Branch} (h : d.branch? id = some branch)

include h

theorem continuesAt_of_branch? : d.continuesAt id = branch.continuesChain := by
  rw [continuesAt, h, Option.any_some]

theorem holdsAt_of_branch? : d.holdsAt id = branch.holds := by
  rw [holdsAt, h, Option.any_some]

end Directive

section Lists

variable {x : NodeId} {rest : List NodeId}

theorem losers_of_holds (h : d.holdsAt x = true) :
    d.losers (x :: rest) = if d.branch? x = some .otherwise then [] else rest := by
  simp [losers, h]

theorem losers_of_fails (h : d.holdsAt x = false) :
    d.losers (x :: rest) = x :: d.losers rest := by
  rw [losers, List.dropWhile_cons_of_pos (by simp [h]), List.takeWhile_cons_of_pos (by simp [h]),
    losers]
  split <;> rfl

theorem losers_sublist (d : Document) (chain : List NodeId) : (d.losers chain).Sublist chain := by
  induction chain with
  | nil => exact .slnil
  | cons x rest ih =>
    cases h : d.holdsAt x with
    | true =>
      rw [losers_of_holds h]
      split
      · exact List.nil_sublist _
      · exact List.sublist_cons_self x rest
    | false =>
      rw [losers_of_fails h]
      exact ih.cons_cons x

/-- What is chosen does not go. -/
theorem not_mem_losers {chain : List NodeId} (hnodup : chain.Nodup) {s : NodeId}
    (hs : d.chosen? chain = some s) : s ∉ d.losers chain := by
  induction chain with
  | nil => exact List.not_mem_nil
  | cons x rest ih =>
    obtain ⟨hx, hrest⟩ := List.nodup_cons.mp hnodup
    cases h : d.holdsAt x with
    | true =>
      obtain rfl : x = s := by simpa [chosen?, h] using hs
      rw [losers_of_holds h]
      split
      · exact List.not_mem_nil
      · exact hx
    | false =>
      have hs' : d.chosen? rest = some s := by simpa [chosen?, h] using hs
      have hmem : s ∈ rest := List.mem_of_find?_eq_some hs'
      rw [losers_of_fails h]
      exact List.not_mem_cons_of_ne_of_not_mem (fun heq => hx (heq ▸ hmem)) (ih hrest hs')

end Lists

/-! ## 2. What may change -/

/-- `e` is `d` with children of `p` taken out and directives taken off, and with no other change. -/
structure Pruned (d e : Document) (p : NodeId) (gone cleared : List NodeId) : Prop where
  size_eq : e.size = d.size
  kind_eq : ∀ x, e.kind x =
    if x ∈ cleared then (d.kind x).mapElement Element.withoutBranch else d.kind x
  parent?_eq : ∀ x, e.parent? x = if x ∈ gone then none else d.parent? x
  children_eq : ∀ x, e.children x =
    if x = p then (d.children x).filter (· ∉ gone) else d.children x
  wellFormed : e.WellFormed

namespace Pruned

variable {gone cleared : List NodeId}

theorem refl (hd : d.WellFormed) (p : NodeId) : Pruned d d p [] [] where
  size_eq := rfl
  kind_eq _ := by simp
  parent?_eq _ := by simp
  children_eq _ := by simp
  wellFormed := hd

theorem branch?_eq (h : Pruned d e p gone cleared) {x : NodeId} (hx : x ∉ cleared) :
    e.branch? x = d.branch? x := by
  rw [branch?, element?, h.kind_eq, if_neg hx, ← element?, ← branch?]

/-- A directive that was taken off is there no more. -/
theorem branch?_cleared (h : Pruned d e p gone cleared) {x : NodeId} (hx : x ∈ cleared) :
    e.branch? x = none := by
  rw [branch?, element?, h.kind_eq, if_pos hx]
  cases d.kind x <;> rfl

/-- One more child is taken out. -/
theorem detach (h : Pruned d e p gone cleared) {x : NodeId} (hx : e.parent? x = some p) :
    Pruned d (e.detach x) p (gone ++ [x]) cleared where
  size_eq := by rw [size_detach, h.size_eq]
  kind_eq y := by rw [kind_detach, h.kind_eq]
  parent?_eq y := by
    rw [parent?_detach, h.parent?_eq]
    by_cases hy : y = x
    · simp [hy]
    · simp [hy, Ne.symm hy]
  children_eq y := by
    rw [children_detach h.wellFormed hx, h.children_eq]
    by_cases hy : y = p
    · subst hy
      rw [if_pos rfl, if_pos rfl, if_pos rfl, List.filter_filter]
      refine List.filter_congr fun c _ => ?_
      rw [Bool.eq_iff_iff]
      simp [and_comm]
    · rw [if_neg (Ne.symm hy), if_neg hy, if_neg hy]
  wellFormed := (grafted_detach h.wellFormed hx).wellFormed h.wellFormed

/-- One more directive is taken off. -/
theorem clearBranch (h : Pruned d e p gone cleared) {x : NodeId} (hx : x ∉ cleared) :
    Pruned d (e.clearBranch x) p gone (cleared ++ [x]) where
  size_eq := by rw [Document.clearBranch, size_modifyElement, h.size_eq]
  kind_eq y := by
    rw [Document.clearBranch, kind_modifyElement, h.kind_eq]
    by_cases hy : y = x
    · subst hy
      simp [hx]
    · simp [hy, Ne.symm hy]
  parent?_eq y := by rw [Document.clearBranch, parent?_modifyElement, h.parent?_eq]
  children_eq y := by rw [Document.clearBranch, children_modifyElement, h.children_eq]
  wellFormed := h.wellFormed.modifyElement x _

/-- The children of `p` that are still there can be told from those that were. -/
theorem mem_children (h : Pruned d e p gone cleared) {x : NodeId} :
    x ∈ e.children p ↔ x ∈ d.children p ∧ x ∉ gone := by
  rw [h.children_eq, if_pos rfl]
  simp

/-- **Nothing is left open by what is said of a document**: it is the only one of which this can be
said. -/
theorem unique {f : Document} (h : Pruned d e p gone cleared) (h' : Pruned d f p gone cleared) :
    e = f := by
  refine ext_node? fun x => ?_
  rcases Nat.lt_or_ge x d.size with hx | hx
  · obtain ⟨n, hn⟩ := exists_node_of_lt (h.size_eq ▸ hx)
    obtain ⟨m, hm⟩ := exists_node_of_lt (h'.size_eq ▸ hx)
    have hkind : n.kind = m.kind := by
      rw [← kind_of_node? hn, ← kind_of_node? hm, h.kind_eq, h'.kind_eq]
    have hparent : n.parent = m.parent := by
      rw [← parent?_of_node? hn, ← parent?_of_node? hm, h.parent?_eq, h'.parent?_eq]
    have hchildren : n.children = m.children := by
      rw [← children_of_node? hn, ← children_of_node? hm, h.children_eq, h'.children_eq]
    rw [hn, hm, show n = m by cases n; cases m; simp_all]
  · rw [node?_eq_none_iff.mpr (h.size_eq ▸ hx), node?_eq_none_iff.mpr (h'.size_eq ▸ hx)]

/-- Directives that are taken off twice are taken off. -/
theorem congr_cleared (h : Pruned d e p gone cleared) {cleared' : List NodeId}
    (hsame : ∀ x, x ∈ cleared' ↔ x ∈ cleared) : Pruned d e p gone cleared' where
  size_eq := h.size_eq
  kind_eq x := by
    rw [h.kind_eq]
    exact if_congr (hsame x).symm rfl rfl
  parent?_eq := h.parent?_eq
  children_eq := h.children_eq
  wellFormed := h.wellFormed

/-! ## 3. The walks -/

section Walks

variable {ids : List NodeId} {c : NodeId}

/-- Children that are still to be walked are there when the one before them is taken out. -/
theorem still_children (h : Pruned d e p gone cleared) (hc : c ∉ ids)
    (hin : ∀ x ∈ c :: ids, x ∈ e.children p ∧ x ∉ cleared) :
    ∀ x ∈ ids, x ∈ (e.detach c).children p ∧ x ∉ cleared := by
  intro x hx
  have hchild := (hin c List.mem_cons_self).1
  obtain ⟨hx', hkept⟩ := hin x (List.mem_cons_of_mem c hx)
  have hne : x ≠ c := fun heq => hc (heq ▸ hx)
  refine ⟨?_, hkept⟩
  rw [children_detach h.wellFormed (h.wellFormed.mem_children_iff.mp hchild), if_pos rfl]
  exact List.mem_filter.mpr ⟨hx', bne_iff_ne.mpr hne⟩

/-- **Dropping the rest of a chain** takes out what continues it. -/
theorem dropRun (h : Pruned d e p gone cleared) (hnodup : ids.Nodup)
    (hin : ∀ x ∈ ids, x ∈ e.children p ∧ x ∉ cleared) :
    Pruned d (e.dropRun ids) p (gone ++ ids.takeWhile d.continuesAt) cleared := by
  induction ids generalizing e gone with
  | nil => simpa [Document.dropRun] using h
  | cons c rest ih =>
    obtain ⟨hc, hrest⟩ := List.nodup_cons.mp hnodup
    obtain ⟨hchild, hkept⟩ := hin c List.mem_cons_self
    have hcontinues : (e.branch? c).any Branch.continuesChain = d.continuesAt c := by
      rw [h.branch?_eq hkept, continuesAt]
    rw [Document.dropRun, hcontinues]
    cases hcase : d.continuesAt c with
    | false => simpa [hcase] using h
    | true =>
      have hdetach := h.detach (h.wellFormed.mem_children_iff.mp hchild)
      have hstep := ih hdetach hrest (h.still_children hc hin)
      rw [if_pos rfl, List.takeWhile_cons_of_pos hcase]
      simpa using hstep

/-- An element that is chosen loses its directive, and the rest of its chain goes. -/
theorem clearBranch_dropRun (h : Pruned d e p gone cleared) (hnodup : (c :: ids).Nodup)
    (hc : c ∉ cleared) (hin : ∀ x ∈ ids, x ∈ e.children p ∧ x ∉ cleared) :
    Pruned d ((e.clearBranch c).dropRun ids) p (gone ++ ids.takeWhile d.continuesAt)
      (cleared ++ [c]) := by
  refine (h.clearBranch hc).dropRun (List.nodup_cons.mp hnodup).2 fun x hx => ?_
  obtain ⟨hchild, hkept⟩ := hin x hx
  have hne : x ≠ c := fun heq => (List.nodup_cons.mp hnodup).1 (heq ▸ hx)
  refine ⟨?_, by simp [hkept, hne]⟩
  rw [Document.clearBranch, children_modifyElement]
  exact hchild

/-- **Choosing an alternative** takes out those that do not hold, and behind an `@else-if` the rest
of the chain. -/
theorem choose (h : Pruned d e p gone cleared) (hnodup : ids.Nodup)
    (hin : ∀ x ∈ ids, x ∈ e.children p ∧ x ∉ cleared) :
    Pruned d (e.choose ids) p (gone ++ d.losers (ids.takeWhile d.continuesAt))
      (cleared ++ (d.chosen? (ids.takeWhile d.continuesAt)).toList) := by
  induction ids generalizing e gone with
  | nil => simpa [Document.choose, losers, chosen?] using h
  | cons c rest ih =>
    obtain ⟨hc, hrest⟩ := List.nodup_cons.mp hnodup
    obtain ⟨hchild, hkept⟩ := hin c List.mem_cons_self
    have hends : d.continuesAt c = false → Pruned d e p
        (gone ++ d.losers ((c :: rest).takeWhile d.continuesAt))
        (cleared ++ (d.chosen? ((c :: rest).takeWhile d.continuesAt)).toList) := fun hcase => by
      simpa [hcase, losers, chosen?] using h
    rw [Document.choose, h.branch?_eq hkept]
    cases hbranch : d.branch? c with
    | none => exact hends (by simp [continuesAt, hbranch])
    | some branch =>
      cases branch with
      | when condition => exact hends (continuesAt_of_branch? hbranch)
      | otherwise =>
        have hcase : d.continuesAt c = true := continuesAt_of_branch? hbranch
        have hholds : d.holdsAt c = true := holdsAt_of_branch? hbranch
        rw [List.takeWhile_cons_of_pos hcase, losers_of_holds hholds, if_pos hbranch]
        simpa [chosen?, hholds] using h.clearBranch hkept
      | orWhen condition =>
        have hcase : d.continuesAt c = true := continuesAt_of_branch? hbranch
        have hholds : d.holdsAt c = condition.holds := holdsAt_of_branch? hbranch
        rw [List.takeWhile_cons_of_pos hcase]
        dsimp only
        cases hcondition : condition.holds with
        | true =>
          have hstep := h.clearBranch_dropRun hnodup hkept fun x hx =>
            hin x (List.mem_cons_of_mem c hx)
          rw [hcondition] at hholds
          rw [if_pos rfl, losers_of_holds hholds, if_neg (by simp [hbranch])]
          simpa [chosen?, hholds] using hstep
        | false =>
          have hdetach := h.detach (h.wellFormed.mem_children_iff.mp hchild)
          have hstep := ih hdetach hrest (h.still_children hc hin)
          rw [hcondition] at hholds
          rw [if_neg (by simp), losers_of_fails hholds]
          simpa [chosen?, hholds] using hstep

end Walks

end Pruned

/-! ## 4. Chains with the elements behind them -/

section Row

variable {before behind : List (NodeId × Tree)} {c : NodeId} {t : Tree}

theorem exists_row_split (hd : d.WellFormed) {id : NodeId} (h : d.parent? id = some p) :
    ∃ before behind, d.row p = before ++ (id, d.tree id) :: behind :=
  List.append_of_mem (mem_row.mpr ⟨hd.mem_children_iff.mpr h, rfl⟩)

/-- A node and the elements behind it are children in their order. -/
theorem cons_laterElements_sublist (hd : d.WellFormed)
    (hrow : d.row p = before ++ (c, t) :: behind) :
    (c :: d.laterElements c).Sublist (d.children p) := by
  rw [laterElements_of_row hd hrow, children_of_row hrow]
  exact ((List.filter_sublist.map _).cons_cons c).trans (List.sublist_append_right _ _)

end Row

theorem settleChain_of_when {id : NodeId} {condition : Text}
    (hbranch : d.branch? id = some (.when condition)) :
    d.settleChain id =
      if condition.holds then .ok ((d.clearBranch id).dropRun (d.laterElements id))
      else .ok (((d.clearBranch id).detach id).choose (d.laterElements id)) := by
  obtain ⟨el, hel, hb⟩ := Option.bind_eq_some_iff.mp hbranch
  rw [settleChain, hel]
  simp only [hb]

theorem chain_sublist (d : Document) (id : NodeId) :
    (d.chain id).Sublist (id :: d.laterElements id) :=
  (List.takeWhile_sublist _).cons_cons id

/-- What belongs to a chain is an element. -/
theorem element?_of_mem_chain {id x : NodeId} {condition : Text}
    (hbranch : d.branch? id = some (.when condition)) (hx : x ∈ d.chain id) :
    d.element? x ≠ none := by
  rcases List.mem_cons.mp hx with rfl | hx
  · intro hnone
    simp [branch?, hnone] at hbranch
  · have hlater := (List.takeWhile_sublist _).subset hx
    rw [laterElements, List.mem_filter] at hlater
    exact Option.isSome_iff_ne_none.mp hlater.2

/-- An element that opens a chain and holds is chosen itself. -/
theorem pruned_of_holds (hd : d.WellFormed) {id : NodeId} (hbranch : d.branch? id ≠ some .otherwise)
    (hholds : d.holdsAt id = true) (hnodup : (id :: d.laterElements id).Nodup)
    (hin : ∀ x ∈ d.laterElements id, x ∈ d.children p) :
    Pruned d ((d.clearBranch id).dropRun (d.laterElements id)) p (d.losers (d.chain id))
      (id :: (d.chosen? (d.chain id)).toList) := by
  have hwalk := (Pruned.refl hd p).clearBranch_dropRun hnodup List.not_mem_nil fun x hx =>
    ⟨hin x hx, List.not_mem_nil⟩
  rw [chain, losers_of_holds hholds, if_neg hbranch]
  refine Pruned.congr_cleared hwalk fun x => ?_
  simp [chosen?, hholds]

/-- One that does not hold goes, and an alternative is chosen. -/
theorem pruned_of_fails (hd : d.WellFormed) {id : NodeId} (hparent : d.parent? id = some p)
    (hholds : d.holdsAt id = false) (hnodup : (id :: d.laterElements id).Nodup)
    (hin : ∀ x ∈ d.laterElements id, x ∈ d.children p) :
    Pruned d (((d.clearBranch id).detach id).choose (d.laterElements id)) p
      (d.losers (d.chain id)) (id :: (d.chosen? (d.chain id)).toList) := by
  obtain ⟨hid, hrest⟩ := List.nodup_cons.mp hnodup
  have hclear := (Pruned.refl hd p).clearBranch (List.not_mem_nil (a := id))
  have hout := hclear.detach (x := id) (by rw [hclear.parent?_eq, if_neg List.not_mem_nil, hparent])
  have hstill : ∀ x ∈ d.laterElements id,
      x ∈ ((d.clearBranch id).detach id).children p ∧ x ∉ [] ++ [id] := fun x hx => by
    have hne : x ≠ id := fun heq => hid (heq ▸ hx)
    exact ⟨hout.mem_children.mpr ⟨hin x hx, by simp [hne]⟩, by simp [hne]⟩
  have hwalk := hout.choose hrest hstill
  rw [chain, losers_of_fails hholds]
  simpa [alternatives, chosen?, hholds] using hwalk

/-! ## 5. Step by step -/

/-- Takes out the next element behind a node, over and over, while it continues a chain. -/
inductive DropsNext (id : NodeId) : Document → Document → Prop
  | stop {d : Document} : (∀ c, d.nextElement? id = some c → d.continuesAt c = false) →
      DropsNext id d d
  | step {d e : Document} {c : NodeId} : d.nextElement? id = some c → d.continuesAt c = true →
      DropsNext id (d.detach c) e → DropsNext id d e

/-- Asks one element after the other, while each continues a chain and none holds.  The element to
ask next is looked up before the one that does not hold is taken out, since afterwards nothing is
behind that. -/
inductive ChoosesNext : Document → Option NodeId → Document → Prop
  | nothing {d : Document} : ChoosesNext d none d
  | outside {d : Document} {c : NodeId} : d.continuesAt c = false → ChoosesNext d (some c) d
  | otherwise {d : Document} {c : NodeId} : d.branch? c = some .otherwise →
      ChoosesNext d (some c) (d.clearBranch c)
  | holds {d e : Document} {c : NodeId} {condition : Text} :
      d.branch? c = some (.orWhen condition) → condition.holds = true →
      DropsNext c (d.clearBranch c) e → ChoosesNext d (some c) e
  | fails {d e : Document} {c : NodeId} {condition : Text} :
      d.branch? c = some (.orWhen condition) → condition.holds = false →
      ChoosesNext (d.detach c) (d.nextElement? c) e → ChoosesNext d (some c) e

section Steps

variable {before passed behind : List (NodeId × Tree)} {c : NodeId} {t : Tree}

theorem elementIds_append (a b : List (NodeId × Tree)) :
    elementIds (a ++ b) = elementIds a ++ elementIds b := by
  simp [elementIds]

theorem nextElement?_of_row (hd : d.WellFormed) (hrow : d.row p = before ++ (c, t) :: behind) :
    d.nextElement? c = (elementIds behind).head? :=
  congrArg List.head? (laterElements_of_row hd hrow)

/-- **Going down the list drops what asking for the next drops.**  What was passed already is no
element. -/
theorem dropsNext_dropRun (hd : d.WellFormed)
    (hrow : d.row p = before ++ (c, t) :: (passed ++ behind)) (hpassed : elementIds passed = []) :
    DropsNext c d (d.dropRun (elementIds behind)) := by
  induction behind generalizing d passed with
  | nil =>
    have hnext := nextElement?_of_row hd hrow
    rw [elementIds_append, hpassed] at hnext
    exact .stop fun x hx => by simp [hnext, elementIds] at hx
  | cons x behind ih =>
    obtain ⟨x, u⟩ := x
    have hnext := nextElement?_of_row hd hrow
    cases hel : u.kind.element? with
    | none =>
      rw [elementIds_cons_of_none hel]
      have hpassed' : elementIds (passed ++ [(x, u)]) = [] := by
        rw [elementIds_append, hpassed, elementIds_cons_of_none hel]
        rfl
      exact ih hd (by simpa using hrow) hpassed'
    | some el =>
      rw [elementIds_append, hpassed, elementIds_cons_of_some hel] at hnext
      rw [elementIds_cons_of_some hel, dropRun]
      change DropsNext c d (if d.continuesAt x = true then _ else d)
      cases hcase : d.continuesAt x with
      | false => exact .stop fun y hy => by simp_all
      | true =>
        have hrow' : d.row p = (before ++ (c, t) :: passed) ++ (x, u) :: behind := by simp [hrow]
        have hdetach := row_detach hd hrow'
        exact .step hnext hcase
          (ih (editedBelow_detach hd hrow').wellFormed (by simpa using hdetach) hpassed)

theorem dropsNext_of_row (hd : d.WellFormed) (hrow : d.row p = before ++ (c, t) :: behind) :
    DropsNext c (d.clearBranch c) ((d.clearBranch c).dropRun (elementIds behind)) := by
  have hrow' : (d.clearBranch c).row p =
      before ++ (c, t.mapElement Element.withoutBranch) :: ([] ++ behind) := row_clearBranch hd hrow
  exact dropsNext_dropRun (editedBelow_clearBranch hd hrow).wellFormed hrow' rfl

/-- **Going down the list chooses what asking for the next chooses.** -/
theorem choosesNext_choose (hd : d.WellFormed) (hrow : d.row p = before ++ behind) :
    ChoosesNext d (elementIds behind).head? (d.choose (elementIds behind)) := by
  induction behind generalizing d before with
  | nil => exact .nothing
  | cons x behind ih =>
    obtain ⟨c, t⟩ := x
    cases hel : t.kind.element? with
    | none =>
      have hrow' : d.row p = (before ++ [(c, t)]) ++ behind := by simp [hrow]
      rw [elementIds_cons_of_none hel]
      exact ih hd hrow'
    | some el =>
      rw [elementIds_cons_of_some hel, choose, List.head?_cons]
      cases hbranch : d.branch? c with
      | none => exact .outside (by simp [continuesAt, hbranch])
      | some branch =>
        cases branch with
        | when condition => exact .outside (continuesAt_of_branch? hbranch)
        | otherwise => exact .otherwise hbranch
        | orWhen condition =>
          dsimp only
          cases hholds : condition.holds with
          | true => exact .holds hbranch hholds (dropsNext_of_row hd hrow)
          | false =>
            refine .fails hbranch hholds ?_
            rw [nextElement?_of_row hd hrow]
            exact ih (editedBelow_detach hd hrow).wellFormed (row_detach hd hrow)

end Steps

theorem DropsNext.unique {id : NodeId} {f : Document} (h : DropsNext id d e)
    (h' : DropsNext id d f) : f = e := by
  induction h with
  | stop hstop =>
    cases h' with
    | stop => rfl
    | step hnext hcontinues => simp [hstop _ hnext] at hcontinues
  | step hnext hcontinues _ ih =>
    cases h' with
    | stop hstop => simp [hstop _ hnext] at hcontinues
    | step hnext' _ hrest =>
      obtain rfl := Option.some.inj (hnext.symm.trans hnext')
      exact ih hrest

theorem ChoosesNext.unique {next : Option NodeId} {f : Document} (h : ChoosesNext d next e)
    (h' : ChoosesNext d next f) : f = e := by
  induction h with
  | nothing =>
    cases h'
    rfl
  | outside hends =>
    cases h' with
    | outside => rfl
    | _ => simp_all [continuesAt, Branch.continuesChain]
  | otherwise hbranch =>
    cases h' with
    | otherwise => rfl
    | _ => simp_all [continuesAt, Branch.continuesChain]
  | holds hbranch hholds hdrops =>
    cases h' with
    | holds _ _ hdrops' => exact hdrops.unique hdrops'
    | _ => simp_all [continuesAt, Branch.continuesChain]
  | fails hbranch hholds _ ih =>
    cases h' with
    | fails _ _ hrest => exact ih hrest
    | _ => simp_all [continuesAt, Branch.continuesChain]

/-- Resolves the chain that a node opens by asking for the next element anew after each that was
taken out. -/
def SettlesNext (d : Document) (id : NodeId) (condition : Text) (e : Document) : Prop :=
  if condition.holds then DropsNext id (d.clearBranch id) e
  else ChoosesNext ((d.clearBranch id).detach id) ((d.clearBranch id).nextElement? id) e

/-- **Both ways of walking come to the same document.** -/
theorem settlesNext_iff (hd : d.WellFormed) {id : NodeId} {condition : Text}
    (hparent : d.parent? id = some p) (hbranch : d.branch? id = some (.when condition)) :
    d.SettlesNext id condition e ↔ d.settleChain id = .ok e := by
  obtain ⟨before, behind, hrow⟩ := exists_row_split hd hparent
  have hclear := (editedBelow_clearBranch hd hrow).wellFormed
  have hrow' := row_clearBranch hd hrow
  have hlater : d.laterElements id = elementIds behind := laterElements_of_row hd hrow
  rw [SettlesNext, settleChain_of_when hbranch, hlater]
  cases condition.holds with
  | true =>
    have hdrops := dropsNext_of_row hd hrow
    simp only [if_true, Except.ok.injEq]
    exact ⟨fun h => (h.unique hdrops), fun h => h ▸ hdrops⟩
  | false =>
    have hdetach := (editedBelow_detach hclear hrow').wellFormed
    have hchooses := choosesNext_choose hdetach (row_detach hclear hrow')
    rw [← nextElement?_of_row hclear hrow'] at hchooses
    simp only [Bool.false_eq_true, if_false, Except.ok.injEq]
    exact ⟨fun h => h.unique hchooses, fun h => h ▸ hchooses⟩

/-! ## 6. The result -/

/-- **What resolving a chain changes.**  The element that opens it loses its directive, and so does
the one that is chosen, which stays.  The others go that `losers` tells; what is no element stays,
and nothing else is changed.  Of no other document can this be said, and it is the one that asking
for the next element, over and over, comes to. -/
theorem settleChain_exact (hd : d.WellFormed) {id : NodeId} {condition : Text}
    (hparent : d.parent? id = some p) (hbranch : d.branch? id = some (.when condition)) :
    ∃ e, d.settleChain id = .ok e ∧
      Pruned d e p (d.losers (d.chain id)) (id :: (d.chosen? (d.chain id)).toList) ∧
      (∀ s, d.chosen? (d.chain id) = some s → s ∈ e.children p ∧ e.branch? s = none) ∧
      (∀ x ∈ d.children p, d.element? x = none → x ∈ e.children p) ∧
      (∀ f, Pruned d f p (d.losers (d.chain id)) (id :: (d.chosen? (d.chain id)).toList) → f = e) ∧
      ∀ f, d.SettlesNext id condition f ↔ f = e := by
  obtain ⟨before, behind, hrow⟩ := exists_row_split hd hparent
  have hsublist := cons_laterElements_sublist hd hrow
  have hnodup := (hd.nodup_children p).sublist hsublist
  have hchild : ∀ x ∈ d.chain id, x ∈ d.children p := fun x hx =>
    hsublist.subset ((chain_sublist d id).subset hx)
  have hin : ∀ x ∈ d.laterElements id, x ∈ d.children p := fun x hx =>
    hsublist.subset (List.mem_cons_of_mem id hx)
  have hpruned : ∃ e, d.settleChain id = .ok e ∧
      Pruned d e p (d.losers (d.chain id)) (id :: (d.chosen? (d.chain id)).toList) := by
    have hholds : d.holdsAt id = condition.holds := holdsAt_of_branch? hbranch
    rw [settleChain_of_when hbranch]
    cases hcondition : condition.holds with
    | true =>
      exact ⟨_, rfl, pruned_of_holds hd (by simp [hbranch]) (hholds.trans hcondition) hnodup hin⟩
    | false => exact ⟨_, rfl, pruned_of_fails hd hparent (hholds.trans hcondition) hnodup hin⟩
  obtain ⟨e, hsettle, hpruned⟩ := hpruned
  refine ⟨e, hsettle, hpruned, fun s hs => ⟨?_, ?_⟩, fun x hx hnone => ?_,
    fun f hf => hf.unique hpruned, fun f => ?_⟩
  · exact hpruned.mem_children.mpr ⟨hchild s (List.mem_of_find?_eq_some hs),
      not_mem_losers (hnodup.sublist (chain_sublist d id)) hs⟩
  · exact hpruned.branch?_cleared (by simp [hs])
  · refine hpruned.mem_children.mpr ⟨hx, fun hgone => ?_⟩
    exact element?_of_mem_chain hbranch ((losers_sublist d _).subset hgone) hnone
  · rw [settlesNext_iff hd hparent hbranch, hsettle, Except.ok.injEq, eq_comm]

/-- The document of `<a @if="0"/>s<b @else-if="1"/>t<c @else/>u<i/>`. -/
def chainSample : Document :=
  .ofTrees [.leaf (.element { name := ['a'], branch := some (.when ['0']) }), .leaf (.text ['s']),
    .leaf (.element { name := ['b'], branch := some (.orWhen ['1']) }), .leaf (.text ['t']),
    .leaf (.element { name := ['c'], branch := some .otherwise }), .leaf (.text ['u']),
    .leaf (.element { name := ['i'] })]

theorem settleChain_chainSample :
    chainSample.WellFormed ∧ chainSample.parent? 1 = some root ∧
      chainSample.branch? 1 = some (.when ['0']) ∧
      ∃ e, chainSample.settleChain 1 = .ok e ∧
        Pruned chainSample e root [1, 5] [1, 3] ∧ e.children root = [2, 3, 4, 6, 7] ∧
        e.branch? 3 = none ∧ e.element? 3 = some { name := ['b'] } := by
  have hsample : chainSample.WellFormed := wellFormed_ofTrees _
  have hparent : chainSample.parent? 1 = some root := by decide
  have hbranch : chainSample.branch? 1 = some (.when ['0']) := by decide
  have hlosers : chainSample.losers (chainSample.chain 1) = [1, 5] := by decide +kernel
  have hchosen : chainSample.chosen? (chainSample.chain 1) = some 3 := by decide +kernel
  have hkind : (chainSample.kind 3).mapElement Element.withoutBranch =
      .element { name := ['b'] } := by decide
  obtain ⟨e, hsettle, hpruned, hstays, -⟩ := settleChain_exact hsample hparent hbranch
  rw [hlosers, hchosen] at hpruned
  have hkept : e.kind 3 = .element { name := ['b'] } := by
    rw [hpruned.kind_eq, if_pos (by decide), hkind]
  refine ⟨hsample, hparent, hbranch, e, hsettle, hpruned, ?_, (hstays 3 hchosen).2, ?_⟩
  · rw [hpruned.children_eq, if_pos rfl]
    decide
  · rw [element?, hkept]
    rfl

end Document

end Stencil
