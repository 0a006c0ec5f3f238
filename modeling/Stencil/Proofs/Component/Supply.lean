/-
# Registering from a supply

A list of names is registered by one call for each, with the markup that a supply has under it.  A
name fails if the supply has nothing under it or if what it has is no markup; whether it does
depends on the supply alone, not on what was registered before (`Supply.Loads`, `Supply.Fails`).

One name that loads is one call (`registerAll_cons`).  So the names in front of the first that fails
have the effect of their calls, one after the other (`registerAll_append`), and there the run stops:
of the failing name and of all behind it nothing is registered (`Engine.registerAll_exact`).
-/
import Stencil.Engine
import Stencil.Proofs.Component.Registration
import Stencil.Proofs.Markup.Tokens

namespace Stencil

/-! ## 1. One name -/

namespace Supply

variable {supply : Supply} {name source : Text} {fault : RenderFault}

/-- Under the name is a source that can be read. -/
def Loads (supply : Supply) (name source : Text) : Prop :=
  supply name = some source ∧ ∃ ts, Tree.parse source = .ok ts

/-- Why nothing can be registered under the name. -/
inductive Fails (supply : Supply) (name : Text) : RenderFault → Prop
  | notSupplied (hnone : supply name = none) : Fails supply name (.notSupplied name)
  | markup {source : Text} {fault : MarkupFault} (hsome : supply name = some source)
    (hparse : Tree.parse source = .error fault) : Fails supply name (.markup fault)

/-- A name loads, or there is a reason why it does not. -/
theorem loads_or_fails (supply : Supply) (name : Text) :
    (∃ source, supply.Loads name source) ∨ ∃ fault, supply.Fails name fault := by
  cases hsupply : supply name with
  | none => exact Or.inr ⟨_, .notSupplied hsupply⟩
  | some source =>
    cases hparse : Tree.parse source with
    | error fault => exact Or.inr ⟨_, .markup hsupply hparse⟩
    | ok ts => exact Or.inl ⟨source, hsupply, ts, hparse⟩

/-- Either all names load, or there is a first one that fails. -/
theorem all_load_or_first_fails (supply : Supply) (names : List Text) :
    (∃ sources, List.Forall₂ supply.Loads names sources) ∨
    ∃ before name behind sources fault, names = before ++ name :: behind ∧
      List.Forall₂ supply.Loads before sources ∧ supply.Fails name fault := by
  induction names with
  | nil => exact Or.inl ⟨[], .nil⟩
  | cons name names ih =>
    rcases supply.loads_or_fails name with ⟨source, hload⟩ | ⟨fault, hfail⟩
    · rcases ih with ⟨sources, hall⟩ | ⟨before, failing, behind, sources, fault, rfl, hall, hfail⟩
      · exact Or.inl ⟨source :: sources, .cons hload hall⟩
      · exact Or.inr ⟨name :: before, failing, behind, source :: sources, fault, rfl,
          .cons hload hall, hfail⟩
    · exact Or.inr ⟨[], name, names, [], fault, rfl, .nil, hfail⟩

end Supply

namespace Engine

/-! ## 2. Calls one after the other -/

/-- The engine registers the sources one after the other, which gives these counts, and becomes the
engine at the end. -/
inductive Registers : Engine → List Text → List Nat → Engine → Prop
  | nil (e : Engine) : Registers e [] [] e
  | cons {e e' final : Engine} {source : Text} {count : Nat} {sources : List Text}
    {counts : List Nat} (hcall : e.register source = .ok (e', count))
    (hrest : Registers e' sources counts final) :
    Registers e (source :: sources) (count :: counts) final

variable {e e' : Engine} {supply : Supply} {name source : Text} {before rest : List Text}
  {sources : List Text} {counts : List Nat} {count : Nat} {fault : RenderFault}

/-- **A call with markup adds its declarations**, and counts them. -/
theorem register_of_parse {ts : List Tree} (h : Tree.parse source = .ok ts) (e : Engine) :
    e.register source =
      .ok ({ e with library := e.library.afterCall source }, (Tree.declarations ts).length) := by
  have hcall := Library.register_eq e.library source
  rw [h] at hcall
  rw [register, Library.afterCall, hcall]
  rfl

theorem register_of_fault {fault : MarkupFault} (h : Tree.parse source = .error fault)
    (e : Engine) : e.register source = .error (.markup fault) := by
  rw [register, Library.register_eq, h]
  rfl

/-- Sources that can be read are registered, whatever the engine. -/
theorem exists_registers {names : List Text} (h : List.Forall₂ supply.Loads names sources)
    (e : Engine) : ∃ counts e', e.Registers sources counts e' := by
  induction h generalizing e with
  | nil => exact ⟨[], e, .nil e⟩
  | cons hload _ ih =>
    obtain ⟨-, ts, hparse⟩ := hload
    have hcall := register_of_parse hparse e
    obtain ⟨counts, final, hrest⟩ := ih _
    exact ⟨_, final, .cons hcall hrest⟩

/-- Calls change the library alone, and count the declarations in each source. -/
theorem Registers.eq (h : e.Registers sources counts e') :
    e' = { e with library := sources.foldl Library.afterCall e.library } ∧
      counts = sources.map fun source => (Library.declarationsOf source).length := by
  induction h with
  | nil e => exact ⟨rfl, rfl⟩
  | @cons e _ _ source _ _ _ hcall _ ih =>
    cases hparse : Tree.parse source with
    | error fault =>
      rw [register_of_fault hparse] at hcall
      exact absurd hcall nofun
    | ok ts =>
      rw [register_of_parse hparse] at hcall
      obtain ⟨rfl, rfl⟩ := Prod.mk.inj (Except.ok.inj hcall)
      obtain ⟨hengine, hcounts⟩ := ih
      refine ⟨hengine, ?_⟩
      rw [hcounts, List.map_cons, Library.declarationsOf, hparse]

/-! ## 3. Runs -/

/-- One name that loads is one call. -/
theorem registerAll_cons (hsupply : supply name = some source)
    (hcall : e.register source = .ok (e', count)) (rest : List Text) :
    e.registerAll supply (name :: rest) =
      ((e'.registerAll supply rest).1, (e'.registerAll supply rest).2.map (count + ·)) := by
  rw [registerAll, hsupply]
  dsimp only
  rw [hcall]

/-- **Names that load are their calls, one after the other**, and what is behind them goes on with
the engine that they leave. -/
theorem registerAll_append (hload : List.Forall₂ supply.Loads before sources)
    (hcalls : e.Registers sources counts e') (rest : List Text) :
    e.registerAll supply (before ++ rest) =
      ((e'.registerAll supply rest).1, (e'.registerAll supply rest).2.map (counts.sum + ·)) := by
  induction hload generalizing e counts with
  | nil =>
    cases hcalls with
    | nil =>
      rw [List.nil_append, List.sum_nil]
      cases hrest : e'.registerAll supply rest with
      | mk final result => cases result <;> simp [Except.map]
  | cons hname _ ih =>
    cases hcalls with
    | cons hcall hrest =>
      rw [List.cons_append, registerAll_cons hname.1 hcall, ih hrest, List.sum_cons]
      cases (e'.registerAll supply rest).2 <;> simp [Except.map, Nat.add_assoc]

/-- A name that fails ends the run at once. -/
theorem registerAll_of_fails (h : supply.Fails name fault) (e : Engine) (rest : List Text) :
    e.registerAll supply (name :: rest) = (e, .error fault) := by
  cases h with
  | notSupplied hnone => rw [registerAll, hnone]
  | markup hsome hparse =>
    rw [registerAll, hsome]
    dsimp only
    rw [register_of_fault hparse]

/-- **A run registers the names in front of the first that fails, and nothing else.**  If all names
load, the run is the calls with their sources, one after the other, and the result is the sum of the
counts.  Otherwise there is a first name that fails; the run ends with its fault, and the engine is
the one after the calls for the names in front of it. -/
theorem registerAll_exact (e : Engine) (supply : Supply) (names : List Text) :
    (∀ sources, List.Forall₂ supply.Loads names sources →
      ∃ counts e', e.Registers sources counts e' ∧
        e' = { e with library := sources.foldl Library.afterCall e.library } ∧
        e.registerAll supply names = (e', .ok counts.sum)) ∧
    (∀ before name behind sources fault, names = before ++ name :: behind →
      List.Forall₂ supply.Loads before sources → supply.Fails name fault →
      ∃ counts e', e.Registers sources counts e' ∧
        e' = { e with library := sources.foldl Library.afterCall e.library } ∧
        e.registerAll supply names = (e', .error fault)) ∧
    ((∃ sources, List.Forall₂ supply.Loads names sources) ∨
      ∃ before name behind sources fault, names = before ++ name :: behind ∧
        List.Forall₂ supply.Loads before sources ∧ supply.Fails name fault) := by
  refine ⟨fun sources hload => ?_, fun before name behind sources fault hnames hload hfail => ?_,
    supply.all_load_or_first_fails names⟩
  · obtain ⟨counts, e', hcalls⟩ := exists_registers hload e
    have hrun := registerAll_append hload hcalls []
    rw [List.append_nil, registerAll] at hrun
    exact ⟨counts, e', hcalls, hcalls.eq.1, hrun⟩
  · obtain ⟨counts, e', hcalls⟩ := exists_registers hload e
    have hrun := registerAll_append hload hcalls (name :: behind)
    rw [registerAll_of_fails hfail, ← hnames] at hrun
    exact ⟨counts, e', hcalls, hcalls.eq.1, hrun⟩

/-- Two components. -/
def pairSource : Text := "<p @name=\"x\"/><p @name=\"y\"/>".toList

/-- A supply of the two, and of one more in front of a tag that is not closed. -/
def supplySample : Supply :=
  .ofEntries [(['a'], pairSource), (['b'], "<p @name=\"z\"/><p".toList)]

theorem registerAll_exact_supplySample :
    supplySample.Fails ['b'] (.markup (.malformed .tagUnclosed 14)) ∧
    (∃ counts e', Registers {} [pairSource] counts e' ∧
      e' = { library := Library.afterCalls [pairSource] } ∧
      registerAll {} supplySample [['a']] = (e', .ok counts.sum)) ∧
    (∃ counts e', Registers {} [pairSource] counts e' ∧
      e' = { library := Library.afterCalls [pairSource] } ∧
      registerAll {} supplySample [['a'], ['b'], ['a']] =
        (e', .error (.markup (.malformed .tagUnclosed 14)))) ∧
    (∃ counts e', Registers {} [pairSource] counts e' ∧
      e' = { library := Library.afterCalls [pairSource] } ∧
      registerAll {} supplySample [['a'], ['c'], ['b']] = (e', .error (.notSupplied ['c']))) ∧
    (Library.afterCalls [pairSource]).keys = [['X'], ['Y']] := by
  have hparse : (Tree.parse pairSource).toOption.isSome := by decide +kernel
  obtain ⟨ts, hts⟩ := Option.isSome_iff_exists.mp hparse
  have hload : List.Forall₂ supplySample.Loads [['a']] [pairSource] :=
    .cons ⟨by decide +kernel, ts, eq_ok_of_toOption hts⟩ .nil
  have hbroken : supplySample ['b'] = some "<p @name=\"z\"/><p".toList := by decide +kernel
  have hmarkup : supplySample.Fails ['b'] (.markup (.malformed .tagUnclosed 14)) :=
    .markup hbroken (by decide +kernel)
  have hnone : supplySample.Fails ['c'] (.notSupplied ['c']) := .notSupplied (by decide +kernel)
  refine ⟨hmarkup, (registerAll_exact {} supplySample [['a']]).1 _ hload, ?_, ?_,
    by decide +kernel⟩
  · exact (registerAll_exact {} supplySample [['a'], ['b'], ['a']]).2.1 [['a']] ['b'] [['a']] _ _
      rfl hload hmarkup
  · exact (registerAll_exact {} supplySample [['a'], ['c'], ['b']]).2.1 [['a']] ['c'] [['b']] _ _
      rfl hload hnone

end Engine

end Stencil
