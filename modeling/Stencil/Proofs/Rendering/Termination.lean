/-
# Rendering returns

Rendering is bounded by construction: walks, visits and levels are counted down.  The counters are
not part of the algorithm, which walks along the children of a node until none is left, goes into
every element that it keeps, and starts over with every body.  This module has the algorithm without
the counters (`runSource` and its companions), as a recursion that does not look at what is left to
do.  Instead it has fuel, which it looks at only to give up when there is none.

Rendering returns if there is an amount of fuel with which, and with any greater amount, it comes to
the same result.  There always is one, and the result is what rendering comes to
(`Engine.render_terminates`).  What the recursion goes down by is not one number.  Bodies start over
on text that may be longer than all that came before, but each is a level deeper and the depth is
limited.  Inside a document, a visit goes into a node that has fewer nodes below it.  And along the
children of a node, a visit may leave the place where it is, take out what is behind it, or put in
any number of nodes; but it never leaves as many nodes to visit as there were.

The last of these and the limit on the depth are said of every single step.  To that end a run notes
what it does, as a list of events, and `Event.Fits` says what each of them has to satisfy.
-/
import Stencil.Proofs.Rendering.Refinement

namespace Stencil

namespace Render

open Document

/-! ## 1. Runs -/

/-- What a run notes. -/
inductive Event where
  /-- A visit to the child of `parent` at a place, which made `after` of the document and left so
  many nodes at the place. -/
  | visited (parent : NodeId) (before : Document) (place : Nat) (after : Document) (left : Nat)
  /-- The body of a component is rendered at a depth. -/
  | body (depth : Nat)

/-- **What each event has to satisfy.**  A visit goes to one of the children and leaves fewer of
them to visit than there were, and no body is rendered below the limit. -/
def Event.Fits (limit : UInt64) : Event → Prop
  | visited parent before place after left =>
    place < (before.children parent).length ∧ place + left ≤ (after.children parent).length ∧
      (after.children parent).length - (place + left) < (before.children parent).length - place
  | body depth => depth ≤ limit.toNat

/-- What a run comes to, and what it did. -/
structure Run (α : Type) where
  result : Except RenderFault α
  events : List Event

mutual

/-- Renders a source at a depth. -/
def runSource (l : Library) (limit : UInt64) (depth : Nat) (source : Text) :
    (fuel : Nat) → Option (Run Document)
  | 0 => none
  | fuel + 1 =>
    match Document.parse source with
    | .error fault => some ⟨.error (.markup fault), []⟩
    | .ok d => runChildren l limit depth root d 0 fuel
termination_by structural fuel => fuel

/-- Visits the children of a node from a place on, until there is none. -/
def runChildren (l : Library) (limit : UInt64) (depth : Nat) (parent : NodeId) (d : Document)
    (place : Nat) : (fuel : Nat) → Option (Run Document)
  | 0 => none
  | fuel + 1 =>
    match (d.children parent)[place]? with
    | none => some ⟨.ok d, []⟩
    | some child => do
      let visit ← runNode l limit depth d child fuel
      match visit.result with
      | .error fault => some ⟨.error fault, visit.events⟩
      | .ok (after, left) => do
        let rest ← runChildren l limit depth parent after (place + left) fuel
        some ⟨rest.result, visit.events ++ .visited parent d place after left :: rest.events⟩
termination_by structural fuel => fuel

/-- Renders a node in place and tells how many nodes stand there now. -/
def runNode (l : Library) (limit : UInt64) (depth : Nat) (d : Document) (id : NodeId) :
    (fuel : Nat) → Option (Run (Document × Nat))
  | 0 => none
  | fuel + 1 =>
    match d.element? id with
    | none => some ⟨.ok (d, 1), []⟩
    | some e =>
      match (d.clearDeclaration id).settleChain id with
      | .error fault => some ⟨.error fault, []⟩
      | .ok d =>
        if (d.parent? id).isNone then some ⟨.ok (d, 0), []⟩
        else
          match l.lookup e.name with
          | some c => do
            let body ← runBody l limit depth d id c fuel
            some ⟨body.result.map (d.replace id), body.events⟩
          | none => do
            let inside ← runChildren l limit depth id d 0 fuel
            some ⟨inside.result.map (·, 1), inside.events⟩
termination_by structural fuel => fuel

/-- Renders the body of a component for its usage, one level deeper. -/
def runBody (l : Library) (limit : UInt64) (depth : Nat) (d : Document) (usage : NodeId)
    (c : Component) : (fuel : Nat) → Option (Run Document)
  | 0 => none
  | fuel + 1 =>
    if limit.toNat ≤ depth then some ⟨.error (.tooDeep c.key limit), []⟩
    else do
      let body ← runSource l limit (depth + 1) (d.filledBody usage c) fuel
      some ⟨body.result, .body (depth + 1) :: body.events⟩
termination_by structural fuel => fuel

end

/-- With enough fuel the run returns the given result, and all that it did fits. -/
def Returns {α : Type} (limit : UInt64) (run : (fuel : Nat) → Option (Run α))
    (r : Except RenderFault α) : Prop :=
  ∃ events enough, (∀ fuel, enough ≤ fuel → run fuel = some ⟨r, events⟩) ∧
    ∀ event ∈ events, event.Fits limit

section Returns

variable {α β : Type} {limit : UInt64} {r : Except RenderFault α}
  {run run' : (fuel : Nat) → Option (Run α)}

/-- What does nothing returns. -/
theorem Returns.done (limit : UInt64) (r : Except RenderFault α) :
    Returns limit (fun _ => some ⟨r, []⟩) r :=
  ⟨[], 0, fun _ _ => rfl, by simp⟩

/-- One more than enough is enough for a call of it. -/
theorem Returns.of_enough (events : List Event) (enough : Nat)
    (hrun : ∀ fuel, enough ≤ fuel → run (fuel + 1) = some ⟨r, events⟩)
    (hfits : ∀ event ∈ events, event.Fits limit) : Returns limit run r := by
  refine ⟨events, enough + 1, fun fuel hfuel => ?_, hfits⟩
  obtain ⟨fuel, rfl⟩ := Nat.exists_eq_add_of_le' (Nat.le_trans (Nat.le_add_left 1 enough) hfuel)
  exact hrun fuel (Nat.le_of_succ_le_succ hfuel)

/-- What calls something that returns, and does nothing else, returns. -/
theorem Returns.call (h : Returns limit run' r) (hcall : ∀ fuel, run (fuel + 1) = run' fuel) :
    Returns limit run r := by
  obtain ⟨events, enough, hrun, hfits⟩ := h
  exact .of_enough events enough (fun fuel hfuel => (hcall fuel).trans (hrun fuel hfuel)) hfits

theorem Returns.map (h : Returns limit run r) (f : α → β) :
    Returns limit (fun fuel => do let x ← run fuel; some ⟨x.result.map f, x.events⟩) (r.map f) := by
  obtain ⟨events, enough, hrun, hfits⟩ := h
  refine ⟨events, enough, fun fuel hfuel => ?_, hfits⟩
  dsimp only
  rw [hrun fuel hfuel]
  rfl

end Returns

/-! ## 2. Walks along the children of a node -/

variable {l : Library} {limit : UInt64} {depth : Nat} {expand : Siblings.Expansion} {d : Document}
  {p : NodeId}

/-- The visits of a run return with what the given visits come to, as long as no more than `bound`
nodes are at stake. -/
def Follows (l : Library) (limit : UInt64) (depth bound : Nat)
    (visit : Document → NodeId → Except RenderFault (Document × Nat)) : Prop :=
  ∀ {d : Document} {p : NodeId} {before behind : List (NodeId × Tree)} {c : NodeId} {t : Tree},
    d.WellFormed → d.row p = before ++ (c, t) :: behind →
      Tree.sizeAll (t :: behind.map Prod.snd) ≤ bound →
        Returns limit (runNode l limit depth d c) (visit d c)

/-- **A visit leaves fewer nodes behind it.** -/
theorem fits_visited {before behind : List (NodeId × Tree)} {c : NodeId} {t : Tree} {e : Document}
    {left : Nat} (hrow : d.row p = before ++ (c, t) :: behind)
    (houtcome : VisitOutcome l expand d p before t behind (.ok (e, left))) :
    (Event.visited p d before.length e left).Fits limit := by
  obtain ⟨-, news, behind', rfl, hrow', hlength, -, -⟩ := houtcome
  have hbefore : (d.children p).length = before.length + (behind.length + 1) := by
    simp [children_of_row hrow]
  have hafter : (e.children p).length = before.length + news.length + behind'.length := by
    rw [← map_fst_row, hrow']
    simp [Nat.add_assoc]
  exact ⟨by omega, by omega, by omega⟩

section Place

variable {child : NodeId} {place : Nat}

/-- A walk is over where there is no child. -/
theorem returns_ended (hend : (d.children p)[place]? = none) :
    Returns limit (runChildren l limit depth p d place) (.ok d) :=
  (Returns.done limit _).call fun fuel => by rw [runChildren, hend]

variable (hchild : (d.children p)[place]? = some child)

include hchild

/-- It is over with a visit that is at fault. -/
theorem returns_stopped {fault : RenderFault}
    (hvisit : Returns limit (runNode l limit depth d child) (.error fault)) :
    Returns limit (runChildren l limit depth p d place) (.error fault) := by
  obtain ⟨events, enough, hrun, hfits⟩ := hvisit
  refine .of_enough events enough (fun fuel hfuel => ?_) hfits
  rw [runChildren, hchild]
  dsimp only
  rw [hrun fuel hfuel]
  rfl

/-- Behind any other visit it goes on. -/
theorem returns_visited {after : Document} {left : Nat} {r : Except RenderFault Document}
    (hvisit : Returns limit (runNode l limit depth d child) (.ok (after, left)))
    (hvisited : (Event.visited p d place after left).Fits limit)
    (hrest : Returns limit (runChildren l limit depth p after (place + left)) r) :
    Returns limit (runChildren l limit depth p d place) r := by
  obtain ⟨events, enough, hrun, hfits⟩ := hvisit
  obtain ⟨events', enough', hrun', hfits'⟩ := hrest
  refine .of_enough (events ++ .visited p d place after left :: events') (max enough enough')
    (fun fuel hfuel => ?_) fun event hevent => ?_
  · rw [runChildren, hchild]
    dsimp only
    rw [hrun fuel (Nat.le_trans (Nat.le_max_left _ _) hfuel)]
    dsimp only [Option.bind_eq_bind, Option.bind_some]
    rw [hrun' fuel (Nat.le_trans (Nat.le_max_right _ _) hfuel)]
    rfl
  · rcases List.mem_append.mp hevent with hevent | hevent
    · exact hfits event hevent
    · rcases List.mem_cons.mp hevent with rfl | hevent
      · exact hvisited
      · exact hfits' event hevent

end Place

/-- **A walk returns if its visits do.** -/
theorem returns_runChildren {bound : Nat}
    {visit : Document → NodeId → Except RenderFault (Document × Nat)}
    (hwalks : Walks l expand bound visit) (hfollows : Follows l limit depth bound visit)
    {visits : Nat} {before behind : List (NodeId × Tree)} (hd : d.WellFormed)
    (hrow : d.row p = before ++ behind) (hvisits : behind.length ≤ visits)
    (hbound : Tree.sizeAll (behind.map Prod.snd) ≤ bound) :
    Returns limit (runChildren l limit depth p d before.length)
      (visitChildren visit p visits d before.length) := by
  induction visits generalizing d before behind with
  | zero =>
    obtain rfl : behind = [] := List.length_eq_zero_iff.mp (Nat.le_zero.mp hvisits)
    exact returns_ended (getElem?_children_end (by simpa using hrow))
  | succ visits ih =>
    rw [visitChildren]
    cases behind with
    | nil =>
      have hend := getElem?_children_end (by simpa using hrow : d.row p = before)
      rw [hend]
      exact returns_ended hend
    | cons x behind =>
      obtain ⟨c, t⟩ := x
      have hchild := getElem?_children_of_row hrow
      have hvisit := hfollows hd hrow hbound
      have houtcome := hwalks hd hrow hbound
      rw [hchild]
      dsimp only
      cases hcase : visit d c with
      | error fault =>
        rw [hcase] at hvisit
        exact returns_stopped hchild hvisit
      | ok result =>
        obtain ⟨e, left⟩ := result
        rw [hcase] at hvisit houtcome
        have hvisited : (Event.visited p d before.length e left).Fits limit :=
          fits_visited hrow houtcome
        obtain ⟨hedit, news, behind', hleft, hrow', hlength, hsize, -⟩ := houtcome
        have hlength' : (before ++ news).length = before.length + left := by
          rw [List.length_append, hleft]
        rw [List.length_cons] at hvisits
        rw [List.map_cons, Tree.sizeAll_cons] at hbound
        have hrest := ih hedit.wellFormed hrow' (by omega) (by omega)
        rw [hlength'] at hrest
        exact returns_visited hchild hvisit hvisited hrest

/-- The walk along all children of a node. -/
theorem returns_runChildren_row {bound : Nat}
    {visit : Document → NodeId → Except RenderFault (Document × Nat)}
    (hwalks : Walks l expand bound visit) (hfollows : Follows l limit depth bound visit)
    (hd : d.WellFormed) (hbound : Tree.sizeAll ((d.row p).map Prod.snd) ≤ bound) :
    Returns limit (runChildren l limit depth p d 0)
      (visitChildren visit p (d.children p).length d 0) := by
  have hrow : d.row p = [] ++ d.row p := rfl
  exact returns_runChildren hwalks hfollows hd hrow (by simp [row]) hbound

/-! ## 3. Visits -/

/-- **A visit returns**, if the bodies of components do. -/
theorem follows_visitNode {bodies : Bodies} (hbodies : Answers bodies expand)
    (hreturns : ∀ d id c, Returns limit (runBody l limit depth d id c) (bodies d id c))
    (nesting : Nat) : Follows l limit depth nesting (visitNode l bodies nesting) := by
  induction nesting with
  | zero =>
    intro d p before behind c t hd hrow hbound
    have hpos := t.size_pos
    rw [Tree.sizeAll_cons] at hbound
    omega
  | succ nesting ih =>
    intro d p before behind c t hd hrow hbound
    have helement := element?_of_row hrow
    rw [visitNode]
    cases hel : t.kind.element? with
    | none =>
      rw [hel] at helement
      rw [helement]
      exact (Returns.done limit _).call fun fuel => by rw [runNode, helement]
    | some el =>
      rw [hel] at helement
      obtain ⟨children, rfl⟩ := eq_node_of_element? hel
      rw [helement]
      dsimp only
      cases hsettle : Siblings.settle el (behind.map Prod.snd) with
      | error fault =>
        have hfault := settled_of_row_error hd hrow hsettle
        rw [hfault]
        exact (Returns.done limit _).call fun fuel => by simp only [runNode, helement, hfault]
      | ok result =>
        obtain ⟨stays, left⟩ := result
        obtain ⟨f, hsettled, hedit, hrow', hparent⟩ := settled_of_row hd hrow hsettle
        rw [hsettled]
        dsimp only
        rw [hparent]
        cases stays with
        | false =>
          exact (Returns.done limit _).call fun fuel => by
            simp [runNode, helement, hsettled, hparent]
        | true =>
          rw [if_pos rfl, List.append_assoc, List.singleton_append] at hrow'
          rw [if_neg (by simp)]
          cases hlookup : l.lookup el.name with
          | some component =>
            exact ((hreturns f c component).map _).call fun fuel => by
              simp [runNode, helement, hsettled, hparent, hlookup]
          | none =>
            -- the children of the node are fewer than it and they together
            have hchildren := map_snd_row_of_tree hedit.wellFormed (tree_of_row hrow')
            have hfewer : Tree.sizeAll ((f.row c).map Prod.snd) ≤ nesting := by
              rw [Tree.sizeAll_cons, Tree.size_node] at hbound
              rw [hchildren]
              omega
            have hwalk := returns_runChildren_row (visitNode_walks hbodies nesting) ih
              hedit.wellFormed hfewer
            exact (hwalk.map _).call fun fuel => by
              simp [runNode, helement, hsettled, hparent, hlookup]

/-! ## 4. Levels -/

/-- A source returns, if the bodies of components do. -/
theorem returns_runSource {bodies : Bodies} (hbodies : Answers bodies expand)
    (hreturns : ∀ d id c, Returns limit (runBody l limit depth d id c) (bodies d id c))
    (source : Text) :
    Returns limit (runSource l limit depth source) (renderWith l bodies source) := by
  rw [renderWith]
  cases hparse : Tree.parse source with
  | error fault =>
    have hdocument : Document.parse source = .error fault := by rw [Document.parse, hparse]; rfl
    rw [hdocument]
    exact (Returns.done limit _).call fun fuel => by rw [runSource, hdocument]
  | ok ts =>
    have hdocument : Document.parse source = .ok (ofTrees ts) := by rw [Document.parse, hparse]; rfl
    have hbound : Tree.sizeAll (((ofTrees ts).row root).map Prod.snd) ≤ (ofTrees ts).size := by
      rw [← trees_eq_map_row, trees_ofTrees, size_ofTrees]
      exact Nat.le_add_left _ _
    have hwalk := returns_runChildren_row (visitNode_walks hbodies _)
      (follows_visitNode hbodies hreturns _) (wellFormed_ofTrees ts) hbound
    rw [hdocument]
    exact hwalk.call fun fuel => by rw [runSource, hdocument]

/-- **A body returns**, since it is rendered a level deeper and the levels come to an end. -/
theorem returns_runBody (levels : Nat) (hlevels : depth + levels = limit.toNat) (d : Document)
    (id : NodeId) (c : Component) :
    Returns limit (runBody l limit depth d id c) (bodiesAt l limit levels d id c) := by
  induction levels generalizing depth d id c with
  | zero =>
    refine (Returns.done limit _).call fun fuel => ?_
    rw [runBody, if_pos (by omega)]
    rfl
  | succ levels ih =>
    have hdeeper : depth + 1 + levels = limit.toNat := by omega
    obtain ⟨events, enough, hrun, hfits⟩ := returns_runSource (answers_bodiesAt l limit levels)
      (ih hdeeper) (d.filledBody id c)
    rw [bodiesAt, renderSource_eq]
    refine .of_enough (.body (depth + 1) :: events) enough (fun fuel hfuel => ?_)
      fun event hevent => ?_
    · rw [runBody, if_neg (by omega), hrun fuel hfuel]
      rfl
    · rcases List.mem_cons.mp hevent with rfl | hevent
      · exact (show depth + 1 ≤ limit.toNat by omega)
      · exact hfits event hevent

end Render

/-! ## 5. Engines -/

/-- Renders a template to markup without counting down, and tells what was done. -/
def Engine.run (e : Engine) (template : Text) (fuel : Nat) : Option (Render.Run Text) := do
  let document ← Render.runSource e.library e.settings.maxDepth 0 template fuel
  some ⟨document.result.map (·.print e.settings.layout), document.events⟩

/-- **Rendering always returns**: there is an amount of fuel from which on a run comes to what the
engine renders the template to, always by the same steps.  Each visit leaves fewer nodes to visit
than there were, and no body is rendered below the greatest depth. -/
theorem Engine.render_terminates (e : Engine) (template : Text) :
    ∃ events enough,
      (∀ fuel, enough ≤ fuel → e.run template fuel = some ⟨e.render template, events⟩) ∧
      ∀ event ∈ events, event.Fits e.settings.maxDepth := by
  have hsource := Render.returns_runSource
    (Render.answers_bodiesAt e.library e.settings.maxDepth e.settings.maxDepth.toNat)
    (Render.returns_runBody _ (Nat.zero_add _)) template
  rw [← Render.renderSource_eq] at hsource
  exact hsource.map _

end Stencil
