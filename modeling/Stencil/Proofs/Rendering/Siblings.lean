/-
# Rendering as a recursion on siblings

Rendering works in place: it walks along the children of a node by their index while chains take
some of them out and usages put others in.  What comes of it can be said without a table and
without an index, as a recursion on a list of trees that stand next to each other.

* The first tree is no element: it is kept.
* It is an element that continues a chain: this is a fault, since no chain took it.
* It is an element that opens a chain: the chain says whether it stays and what is left behind it
  (`settle`).
* An element that stays is a usage of a component, and the rendered body of the component takes its
  place, or it keeps its place, without its directives and with its children rendered.

`renderSource` is this recursion on all levels.  That it agrees with rendering in place is the
subject of the modules that follow; here are its definitions and the sizes that it goes down by.
-/
import Stencil.Render.Visit
import Stencil.Proofs.Document.Rows

namespace Stencil

/-- The element without its directives. -/
def Element.plain (e : Element) : Element := e.withoutDeclaration.withoutBranch

theorem Element.continuesChain_eq_false {e : Element} : e.continuesChain = false ↔
    e.branch = none ∨ ∃ condition, e.branch = some (.when condition) := by
  rw [continuesChain]
  cases e.branch with
  | none => simp
  | some branch => cases branch <;> simp [Branch.continuesChain]

theorem Element.continuesChain_eq_true {e : Element} : e.continuesChain = true ↔
    e.branch = some .otherwise ∨ ∃ condition, e.branch = some (.orWhen condition) := by
  rw [continuesChain]
  cases e.branch with
  | none => simp
  | some branch => cases branch <;> simp [Branch.continuesChain]

namespace Siblings

/-! ## 1. Chains -/

/-- What is left behind an element that was chosen: the elements that continue its chain are
dropped, up to the first that does not. -/
def afterChosen : List Tree → List Tree
  | [] => []
  | t :: rest =>
    match t.kind.element? with
    | none => t :: afterChosen rest
    | some e => if e.continuesChain then afterChosen rest else t :: rest

/-- What is left behind an element that was not chosen: the alternatives that do not hold are
dropped, up to the first that does; it stays, without its directive. -/
def afterRejected : List Tree → List Tree
  | [] => []
  | t :: rest =>
    match t.kind.element? with
    | none => t :: afterRejected rest
    | some e =>
      match e.branch with
      | some .otherwise => t.mapElement Element.withoutBranch :: rest
      | some (.orWhen condition) =>
        if condition.holds then t.mapElement Element.withoutBranch :: afterChosen rest
        else afterRejected rest
      | _ => t :: rest

/-- Whether an element stays, and what is left of the trees behind it. -/
def settle (e : Element) (behind : List Tree) : Except RenderFault (Bool × List Tree) :=
  match e.branch with
  | none => .ok (true, behind)
  | some .otherwise => .error (.danglingOtherwise e.name)
  | some (.orWhen condition) => .error (.danglingOrWhen e.name condition)
  | some (.when condition) =>
    if condition.holds then .ok (true, afterChosen behind) else .ok (false, afterRejected behind)

/-- A chain that was rejected ends in front of an element that does not continue it. -/
theorem afterRejected_of_stops {t : Tree} {e : Element} (ht : t.kind.element? = some e)
    (hstops : e.continuesChain = false) (rest : List Tree) :
    afterRejected (t :: rest) = t :: rest := by
  rw [afterRejected, ht]
  obtain hbranch | ⟨condition, hbranch⟩ := Element.continuesChain_eq_false.mp hstops
  · simp [hbranch]
  · simp [hbranch]

/-- **An element is settled** if it stands outside any chain, or opens one; then its condition says
whether it stays. -/
theorem settle_eq_ok {e : Element} {behind left : List Tree} {stays : Bool} :
    settle e behind = .ok (stays, left) ↔
      e.branch = none ∧ stays = true ∧ left = behind ∨
        ∃ condition, e.branch = some (.when condition) ∧ stays = condition.holds ∧
          left = if condition.holds then afterChosen behind else afterRejected behind := by
  rw [settle]
  cases e.branch with
  | none => simp [@eq_comm _ behind left]
  | some branch =>
    cases branch with
    | when condition =>
      cases hholds : condition.holds with
      | true => simp [hholds, @eq_comm _ (afterChosen behind) left]
      | false => simp [hholds, @eq_comm _ (afterRejected behind) left]
    | orWhen condition => simp
    | otherwise => simp

/-- An element is at fault if it continues a chain, since no chain is open where it is reached. -/
theorem settle_eq_error {e : Element} {behind : List Tree} {fault : RenderFault} :
    settle e behind = .error fault ↔
      e.branch = some .otherwise ∧ fault = .danglingOtherwise e.name ∨
        ∃ condition, e.branch = some (.orWhen condition) ∧
          fault = .danglingOrWhen e.name condition := by
  rw [settle]
  cases e.branch with
  | none => simp
  | some branch =>
    cases branch with
    | when condition => cases hholds : condition.holds <;> simp [hholds]
    | orWhen condition => simp [@eq_comm _ _ fault]
    | otherwise => simp [@eq_comm _ _ fault]

/-! ## 2. Usages -/

/-- What a usage puts into a slot. -/
def slotText (e : Element) (children : List Tree) : Slot → Text
  | .children => Tree.printAll .verbatim children
  | .value name raw =>
    match e.value? name with
    | none => []
    | some value => if raw then value else Text.inert value

/-- The body of a component, filled for a usage. -/
def filledBody (e : Element) (children : List Tree) (c : Component) : Text :=
  Body.fill (slotText e children) c.body

/-- What the usages of components are answered with: the rendered body of a component, for the
element and the children of its usage. -/
abbrev Expansion := Element → List Tree → Component → Except RenderFault (List Tree)

/-! ## 3. Sizes -/

theorem size_mapElement (g : Element → Element) (t : Tree) : (t.mapElement g).size = t.size := by
  cases t
  rfl

theorem sizeAll_eq_sum (ts : List Tree) : Tree.sizeAll ts = (ts.map Tree.size).sum := by
  induction ts with
  | nil => rfl
  | cons t rest ih => rw [Tree.sizeAll_cons, List.map_cons, List.sum_cons, ih]

section Weight

/-! A chain takes trees away and changes nothing but directives, so it cannot make trees heavier
that are weighed without looking at directives: neither their number grows nor their size. -/

variable {w : Tree → Nat}

theorem sum_afterChosen_le (w : Tree → Nat) (ts : List Tree) :
    ((afterChosen ts).map w).sum ≤ (ts.map w).sum := by
  induction ts with
  | nil => exact Nat.le_refl _
  | cons t rest ih =>
    rw [afterChosen]
    split
    · simp only [List.map_cons, List.sum_cons]
      omega
    · split
      · simp only [List.map_cons, List.sum_cons]
        omega
      · exact Nat.le_refl _

theorem sum_afterRejected_le (hw : ∀ t : Tree, w (t.mapElement Element.withoutBranch) = w t)
    (ts : List Tree) : ((afterRejected ts).map w).sum ≤ (ts.map w).sum := by
  induction ts with
  | nil => exact Nat.le_refl _
  | cons t rest ih =>
    have hchosen := sum_afterChosen_le w rest
    rw [afterRejected]
    split
    · simp only [List.map_cons, List.sum_cons]
      omega
    · split
      · simp only [List.map_cons, List.sum_cons, hw]
        omega
      · split
        · simp only [List.map_cons, List.sum_cons, hw]
          omega
        · simp only [List.map_cons, List.sum_cons]
          omega
      · exact Nat.le_refl _

theorem sum_of_settle (hw : ∀ t : Tree, w (t.mapElement Element.withoutBranch) = w t)
    {e : Element} {behind left : List Tree} {stays : Bool}
    (h : settle e behind = .ok (stays, left)) : (left.map w).sum ≤ (behind.map w).sum := by
  obtain ⟨-, -, rfl⟩ | ⟨condition, -, -, rfl⟩ := settle_eq_ok.mp h
  · exact Nat.le_refl _
  · split
    · exact sum_afterChosen_le w behind
    · exact sum_afterRejected_le hw behind

end Weight

section Settle

variable {e : Element} {behind left : List Tree} {stays : Bool}

theorem sizeAll_of_settle (h : settle e behind = .ok (stays, left)) :
    Tree.sizeAll left ≤ Tree.sizeAll behind := by
  rw [sizeAll_eq_sum, sizeAll_eq_sum]
  exact sum_of_settle (size_mapElement _) h

theorem length_of_settle (h : settle e behind = .ok (stays, left)) :
    left.length ≤ behind.length := by
  let one : Tree → Nat := fun _ => 1
  have hone : ∀ ts : List Tree, (ts.map one).sum = ts.length := fun ts => by simp [one]
  rw [← hone left, ← hone behind]
  exact sum_of_settle (fun _ => rfl) h

end Settle

/-! ## 4. One level -/

/-- **Renders the trees on a list**, with the given answer to the usages of components. -/
def render (l : Library) (expand : Expansion) : List Tree → Except RenderFault (List Tree)
  | [] => .ok []
  | .node kind children :: behind =>
    match kind with
    | .element e =>
      match _hsettle : settle e behind with
      | .error fault => .error fault
      | .ok (false, left) => render l expand left
      | .ok (true, left) =>
        match l.lookup e.name with
        | some c =>
          match expand e.plain children c with
          | .error fault => .error fault
          | .ok here => (render l expand left).map (here ++ ·)
        | none =>
          match render l expand children with
          | .error fault => .error fault
          | .ok inside =>
            (render l expand left).map (.node (.element e.plain) inside :: ·)
    | kind => (render l expand behind).map (.node kind children :: ·)
termination_by ts => Tree.sizeAll ts
decreasing_by
  all_goals simp only [Tree.sizeAll_cons, Tree.size_node]
  all_goals first
    | omega
    | have := sizeAll_of_settle _hsettle; omega

section Render

variable {l : Library} {expand : Expansion} {t : Tree} {children behind : List Tree}
  {e : Element}

@[simp] theorem render_nil : render l expand [] = .ok [] := by
  rw [render]

/-- What is no element is kept. -/
theorem render_of_none (ht : t.kind.element? = none) :
    render l expand (t :: behind) = (render l expand behind).map (t :: ·) := by
  obtain ⟨kind, children⟩ := t
  cases kind with
  | element e => exact absurd ht (by simp [Tree.kind, NodeKind.element?])
  | _ => rw [render]; simp

/-- What comes to the place of an element that stays: the body of a component if it is a usage, and
otherwise the element itself, without directives and with its children rendered. -/
def placed (l : Library) (expand : Expansion) (e : Element) (children : List Tree) :
    Except RenderFault (List Tree) :=
  match l.lookup e.name with
  | some c => expand e.plain children c
  | none => (render l expand children).map fun inside => [.node (.element e.plain) inside]

/-- **An element is first settled with its chain**, and if it stays, something comes to its place.
-/
theorem render_element : render l expand (.node (.element e) children :: behind) =
    match settle e behind with
    | .error fault => .error fault
    | .ok (false, left) => render l expand left
    | .ok (true, left) =>
      match placed l expand e children with
      | .error fault => .error fault
      | .ok here => (render l expand left).map (here ++ ·) := by
  rw [render]
  split
  · next h => rw [h]
  · next h => rw [h]
  · next left h =>
    rw [h, placed]
    dsimp only
    cases l.lookup e.name with
    | some c => rfl
    | none => cases render l expand children <;> rfl

/-- An element that stands alone, outside any chain. -/
theorem render_singleton (hbranch : e.branch = none) :
    render l expand [.node (.element e) children] = placed l expand e children := by
  rw [render_element, settle, hbranch]
  dsimp only
  rw [render_nil]
  cases placed l expand e children with
  | error fault => rfl
  | ok here => exact congrArg Except.ok (List.append_nil here)

/-- What comes to the place of an element that is settled with its chain: nothing if the chain takes
it out. -/
def replaced (l : Library) (expand : Expansion) (e : Element) (children : List Tree) :
    (stays : Bool) → Except RenderFault (List Tree)
  | true => placed l expand e children
  | false => .ok []

theorem render_of_settle {stays : Bool} {left : List Tree}
    (h : settle e behind = .ok (stays, left)) :
    render l expand (.node (.element e) children :: behind) =
      match replaced l expand e children stays with
      | .error fault => .error fault
      | .ok here => (render l expand left).map (here ++ ·) := by
  rw [render_element, h]
  cases stays with
  | true => rfl
  | false =>
    simp only [replaced, List.nil_append]
    cases render l expand left <;> rfl

end Render

/-! ## 5. All levels -/

/-- Renders a source with the given answer to the usages of components. -/
def renderWith (l : Library) (expand : Expansion) (source : Text) :
    Except RenderFault (List Tree) :=
  match Tree.parse source with
  | .error fault => .error (.markup fault)
  | .ok ts => render l expand ts

/-- **Renders a source**, in which components may nest so many levels deep. -/
def renderSource (l : Library) (limit : UInt64) :
    (levels : Nat) → Text → Except RenderFault (List Tree)
  | 0 => renderWith l fun _ _ c => .error (.tooDeep c.key limit)
  | levels + 1 =>
    renderWith l fun e children c => renderSource l limit levels (filledBody e children c)

/-- What usages are answered with where components may nest so many levels deep. -/
def expansionAt (l : Library) (limit : UInt64) : (levels : Nat) → Expansion
  | 0 => fun _ _ c => .error (.tooDeep c.key limit)
  | levels + 1 => fun e children c => renderSource l limit levels (filledBody e children c)

theorem renderSource_eq (l : Library) (limit : UInt64) (levels : Nat) :
    renderSource l limit levels = renderWith l (expansionAt l limit levels) := by
  cases levels <;> rfl

/-- At each depth, rendering a source is the recursion on siblings with some answer to usages. -/
theorem exists_renderSource_eq (l : Library) (limit : UInt64) (levels : Nat) :
    ∃ expand, renderSource l limit levels = renderWith l expand :=
  ⟨_, renderSource_eq l limit levels⟩

end Siblings

end Stencil
