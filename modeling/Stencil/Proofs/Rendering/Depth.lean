/-
# The depth limit

Settings bound how deep components may nest, and a usage below that depth is a fault of its own.
This module shows that the bound does nothing else: two renderings of a source, of which the second
may nest deeper, are the same, unless the first one ends in that fault (`Deepens`).

The limit is looked at in one place only, at the last level, where usages are answered with the
fault.  So the comparison starts with the answers to usages and is carried through everything that
is built on them: if the visits to nodes deepen, so does the walk along the children of a node
(`deepens_visitChildren`), if the answers to usages deepen, so do visits, documents and sources,
and the sources of one level are the answers to usages on the level above (`deepens_renderSource`).
-/
import Mathlib
import Stencil.Engine

namespace Stencil

/-! ## 1. Comparing results -/

/-- The fault says that components nest too deep. -/
def RenderFault.IsTooDeep : RenderFault → Prop
  | tooDeep _ _ => True
  | _ => False

/-- The second result is the first one, unless the first is that components nest too deep. -/
def Deepens {α : Type} (r r' : Except RenderFault α) : Prop :=
  r' = r ∨ ∃ fault, r = .error fault ∧ fault.IsTooDeep

namespace Deepens

variable {α β : Type} {r r' : Except RenderFault α}

theorem refl (r : Except RenderFault α) : Deepens r r := Or.inl rfl

theorem of_tooDeep (key : Text) (limit : UInt64) (r' : Except RenderFault α) :
    Deepens (.error (.tooDeep key limit)) r' :=
  Or.inr ⟨_, rfl, trivial⟩

theorem map (h : Deepens r r') (f : α → β) : Deepens (r.map f) (r'.map f) := by
  rcases h with rfl | ⟨fault, rfl, hdeep⟩
  · exact .refl _
  · exact Or.inr ⟨fault, rfl, hdeep⟩

/-- What was rendered is rendered again. -/
theorem ok {a : α} (h : Deepens (.ok a) r') : r' = .ok a := by
  rcases h with rfl | ⟨fault, heq, -⟩
  · rfl
  · exact absurd heq nofun

/-- A fault of another kind is found again. -/
theorem error {fault : RenderFault} (h : Deepens (.error fault) r') (hother : ¬ fault.IsTooDeep) :
    r' = .error fault := by
  rcases h with rfl | ⟨fault', heq, hdeep⟩
  · rfl
  · rw [Except.error.inj heq] at hother
    exact absurd hdeep hother

end Deepens

/-! ## 2. One level -/

namespace Render

variable {l : Library} {bodies bodies' : Bodies}

/-- **A walk along the children of a node deepens if its visits do.** -/
theorem deepens_visitChildren
    {visit visit' : Document → NodeId → Except RenderFault (Document × Nat)}
    (hvisit : ∀ d id, Deepens (visit d id) (visit' d id)) (parent : NodeId) (visits : Nat)
    (d : Document) (place : Nat) :
    Deepens (visitChildren visit parent visits d place)
      (visitChildren visit' parent visits d place) := by
  induction visits generalizing d place with
  | zero => exact .refl _
  | succ visits ih =>
    rw [visitChildren, visitChildren]
    cases (d.children parent)[place]? with
    | none => exact .refl _
    | some child =>
      dsimp only
      rcases hvisit d child with heq | ⟨fault, heq, hdeep⟩
      · rw [heq]
        cases visit d child with
        | error fault => exact .refl _
        | ok result => exact ih result.1 (place + result.2)
      · rw [heq]
        exact Or.inr ⟨fault, rfl, hdeep⟩

/-- **A visit deepens if the answers to usages do.** -/
theorem deepens_visitNode (hbodies : ∀ d id c, Deepens (bodies d id c) (bodies' d id c))
    (nesting : Nat) (d : Document) (id : NodeId) :
    Deepens (visitNode l bodies nesting d id) (visitNode l bodies' nesting d id) := by
  induction nesting generalizing d id with
  | zero => exact .refl _
  | succ nesting ih =>
    rw [visitNode, visitNode]
    cases d.element? id with
    | none => exact .refl _
    | some e =>
      dsimp only
      cases (d.clearDeclaration id).settleChain id with
      | error fault => exact .refl _
      | ok settled =>
        dsimp only
        by_cases hgone : (settled.parent? id).isNone = true
        · rw [if_pos hgone, if_pos hgone]
          exact .refl _
        · rw [if_neg hgone, if_neg hgone]
          cases l.lookup e.name with
          | some c => exact (hbodies settled id c).map _
          | none => exact (deepens_visitChildren ih id _ settled 0).map _

theorem deepens_renderWith (hbodies : ∀ d id c, Deepens (bodies d id c) (bodies' d id c))
    (source : Text) : Deepens (renderWith l bodies source) (renderWith l bodies' source) := by
  rw [renderWith, renderWith]
  cases Document.parse source with
  | error fault => exact .refl _
  | ok d => exact deepens_visitChildren (deepens_visitNode hbodies d.size) _ _ d 0

/-! ## 3. All levels -/

/-- **Rendering with more levels deepens**, whatever depth is reported at their end. -/
theorem deepens_renderSource (l : Library) (limit limit' : UInt64) {levels levels' : Nat}
    (h : levels ≤ levels') (source : Text) :
    Deepens (renderSource l limit levels source) (renderSource l limit' levels' source) := by
  induction levels generalizing levels' source with
  | zero =>
    have hlast : ∀ bodies', Deepens (renderSource l limit 0 source) (renderWith l bodies' source) :=
      fun bodies' => deepens_renderWith (fun _ _ c => .of_tooDeep c.key limit _) source
    cases levels' with
    | zero => exact hlast _
    | succ levels' => exact hlast _
  | succ levels ih =>
    cases levels' with
    | zero => exact absurd h (Nat.not_succ_le_zero levels)
    | succ levels' =>
      exact deepens_renderWith (fun d usage c => ih (Nat.le_of_succ_le_succ h) _) source

end Render

/-! ## 4. Engines -/

namespace Engine

/-- **The depth limit turns results into the fault of nesting too deep and does nothing else**: with
a greater limit, what was rendered is rendered to the same markup, and every other fault is found
again. -/
theorem render_of_maxDepth_le (l : Library) (compact : Bool) (template : Text)
    {depth depth' : UInt64} (h : depth ≤ depth') :
    (∀ out, render ⟨l, ⟨depth, compact⟩⟩ template = .ok out →
      render ⟨l, ⟨depth', compact⟩⟩ template = .ok out) ∧
    (∀ fault, render ⟨l, ⟨depth, compact⟩⟩ template = .error fault → ¬ fault.IsTooDeep →
      render ⟨l, ⟨depth', compact⟩⟩ template = .error fault) := by
  have hlevels : depth.toNat ≤ depth'.toNat := UInt64.le_iff_toNat_le.mp h
  have hdeepens : Deepens (render ⟨l, ⟨depth, compact⟩⟩ template)
      (render ⟨l, ⟨depth', compact⟩⟩ template) :=
    (Render.deepens_renderSource l depth depth' hlevels template).map _
  constructor
  · intro out hout
    exact (hout ▸ hdeepens).ok
  · intro fault hfault hother
    exact (hfault ▸ hdeepens).error hother

/-- Two components, of which the first uses the second: `<a><B/></a>` and `<b>y</b>`. -/
def nestedSample : Library :=
  ⟨[(['A'], ⟨['A'], ['a'], .ofTrees [.node (.element { name := ['a'], declares := some ['a'] })
      [.leaf (.element { name := ['B'], selfClosing := true })]]⟩),
    (['B'], ⟨['B'], ['b'], .ofTrees [.node (.element { name := ['b'], declares := some ['b'] })
      [.leaf (.text ['y'])]]⟩)]⟩

theorem render_nestedSample_deeper :
    (2 : UInt64) ≤ 3 ∧
    render ⟨nestedSample, ⟨2, true⟩⟩ "<A/>".toList = .ok "<a><b>y</b></a>".toList ∧
    render ⟨nestedSample, ⟨3, true⟩⟩ "<A/>".toList = .ok "<a><b>y</b></a>".toList ∧
    render ⟨nestedSample, ⟨2, true⟩⟩ "<A/><i @else/>".toList =
      .error (.danglingOtherwise ['i']) ∧
    render ⟨nestedSample, ⟨3, true⟩⟩ "<A/><i @else/>".toList =
      .error (.danglingOtherwise ['i']) := by
  have hle : (2 : UInt64) ≤ 3 := by decide
  have hok : render ⟨nestedSample, ⟨2, true⟩⟩ "<A/>".toList = .ok "<a><b>y</b></a>".toList := by
    decide +kernel
  have hfault : render ⟨nestedSample, ⟨2, true⟩⟩ "<A/><i @else/>".toList =
      .error (.danglingOtherwise ['i']) := by
    decide +kernel
  have hdeeper := render_of_maxDepth_le nestedSample true "<A/>".toList hle
  have hdeeper' := render_of_maxDepth_le nestedSample true "<A/><i @else/>".toList hle
  exact ⟨hle, hok, hdeeper.1 _ hok, hfault, hdeeper'.2 _ hfault not_false⟩

/-- With one level less the second component is out of reach. -/
example : render ⟨nestedSample, ⟨1, true⟩⟩ "<A/>".toList = .error (.tooDeep ['B'] 1) := by
  decide +kernel

end Engine

end Stencil
