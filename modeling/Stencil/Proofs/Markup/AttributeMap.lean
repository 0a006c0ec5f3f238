/-
# Attributes as a map in order of insertion

The attributes of an element are a list, and both ways to change it look for the first attribute of
a name.  That the list is a map is owed to one invariant, that all names are different: then the
first attribute of a name is the only one.

What a call does is said once, with a case for each way that it can go (`AttributeCall.Does`): a set
replaces a value where it stands or appends, a removal closes a gap or does nothing.  Every call
does this (`AttributeCall.does_run`).  From the cases it follows that names stay different
(`AttributeCall.Does.nodup_names`) and that the call decides about its name and about no other
(`AttributeCall.Does.attribute?`).  After any calls, then, what is found under a name is what the
last call that was about it has left (`Element.attributes_exact`).
-/
import Mathlib
import Stencil.Markup.Element

namespace Stencil

/-! ## 1. What is found under a name -/

namespace Attribute

variable {name value : Text} {as front behind : List Attribute} {a : Attribute}

theorem find?_append_cons (name : Text) (front : List Attribute) (a : Attribute)
    (behind : List Attribute) : find? name (front ++ a :: behind) =
      (find? name front).or (if a.name = name then some a else find? name behind) := by
  unfold find?
  rw [List.find?_append, List.find?_cons]
  by_cases ha : a.name = name
  · rw [if_pos ha, beq_iff_eq.mpr ha]
  · rw [if_neg ha, beq_false_of_ne ha]

theorem find?_eq_none_iff : find? name as = none ↔ ∀ a ∈ as, a.name ≠ name := by
  simp [find?]

/-- Where names are different, no other attribute has the name of one of them. -/
theorem find?_of_nodup (h : ((front ++ a :: behind).map Attribute.name).Nodup) :
    find? a.name front = none ∧ find? a.name behind = none := by
  rw [List.map_append, List.map_cons, List.nodup_middle, List.nodup_cons, List.mem_append] at h
  obtain ⟨hfront, hbehind⟩ := not_or.mp h.1
  refine ⟨find?_eq_none_iff.mpr fun b hb heq => ?_, find?_eq_none_iff.mpr fun b hb heq => ?_⟩
  · exact hfront (heq ▸ List.mem_map_of_mem hb)
  · exact hbehind (heq ▸ List.mem_map_of_mem hb)

/-- A value is put where the name stands, or at the end. -/
theorem put_cases (name value : Text) (as : List Attribute) :
    (∃ front old behind, as = front ++ ⟨name, old⟩ :: behind ∧
      put name value as = front ++ ⟨name, value⟩ :: behind) ∨
    ((∀ a ∈ as, a.name ≠ name) ∧ put name value as = as ++ [⟨name, value⟩]) := by
  induction as with
  | nil => exact Or.inr ⟨by simp, rfl⟩
  | cons a as ih =>
    rw [put]
    by_cases ha : a.name = name
    · refine Or.inl ⟨[], a.value, as, ?_, ?_⟩
      · rw [← ha, List.nil_append]
      · rw [if_pos ha, List.nil_append]
    · rw [if_neg ha]
      rcases ih with ⟨front, old, behind, has, hput⟩ | ⟨habsent, hput⟩
      · exact Or.inl ⟨a :: front, old, behind, by rw [has]; rfl, by rw [hput]; rfl⟩
      · exact Or.inr ⟨List.forall_mem_cons.mpr ⟨ha, habsent⟩, by rw [hput]; rfl⟩

end Attribute

/-- **What is taken away is what is found under the name**, and the others are left. -/
theorem Element.takeAttribute_eq (e : Element) (name : Text) :
    e.takeAttribute name = (e.attribute? name, e.withoutAttribute name) := by
  unfold takeAttribute attribute? withoutAttribute Attribute.find? Attribute.drop
  rw [List.eraseP_eq_eraseIdx]
  cases hplace : e.attributes.findIdx? (·.name == name) with
  | none =>
    have hnone := List.findIdx?_eq_none_iff.mp hplace
    rw [List.find?_eq_none.mpr fun a ha => by simp [hnone a ha]]
  | some place =>
    obtain ⟨hlt, hat, hfirst⟩ := List.findIdx?_eq_some_iff_getElem.mp hplace
    have hfind : e.attributes.find? (·.name == name) = some e.attributes[place] :=
      List.find?_eq_some_iff_getElem.mpr
        ⟨hat, place, hlt, rfl, fun j hj => by simpa using hfirst j hj⟩
    rw [hfind]
    dsimp only
    rw [List.getElem?_eq_getElem hlt]

/-! ## 2. Calls -/

/-- A call that changes the attributes of an element. -/
inductive AttributeCall where
  | set (name value : Text)
  | remove (name : Text)

namespace AttributeCall

/-- The name that the call is about. -/
def name : AttributeCall → Text
  | set name _ => name
  | remove name => name

/-- The attribute of this name that there is behind the call. -/
def leaves : AttributeCall → Option Attribute
  | set name value => some ⟨name, value⟩
  | remove _ => none

/-- Makes the call.  A removal answers with the attribute that was taken away. -/
def run (e : Element) : AttributeCall → Option Attribute × Element
  | set name value => (none, e.withAttribute name value)
  | remove name => e.takeAttribute name

/-- **What a call does to an element**, and what it answers. -/
inductive Does (e : Element) : AttributeCall → Option Attribute → Element → Prop
  /-- A set on a name that is there keeps its place. -/
  | replaces {name old value : Text} {front behind : List Attribute}
      (hat : e.attributes = front ++ ⟨name, old⟩ :: behind) :
    Does e (set name value) none { e with attributes := front ++ ⟨name, value⟩ :: behind }
  /-- A set on any other name appends. -/
  | appends {name value : Text} (habsent : ∀ a ∈ e.attributes, a.name ≠ name) :
    Does e (set name value) none { e with attributes := e.attributes ++ [⟨name, value⟩] }
  /-- A removal of a name that is there returns the attribute, and the others stay in order. -/
  | takes {name value : Text} {front behind : List Attribute}
      (hat : e.attributes = front ++ ⟨name, value⟩ :: behind) :
    Does e (remove name) (some ⟨name, value⟩) { e with attributes := front ++ behind }
  /-- A removal of any other name does nothing. -/
  | misses {name : Text} (habsent : ∀ a ∈ e.attributes, a.name ≠ name) :
    Does e (remove name) none e

/-- **Every call does one of these.** -/
theorem does_run (e : Element) (call : AttributeCall) :
    call.Does e (call.run e).1 (call.run e).2 := by
  cases call with
  | set name value =>
    rw [run, Element.withAttribute]
    rcases Attribute.put_cases name value e.attributes with
      ⟨front, old, behind, hat, hput⟩ | ⟨habsent, hput⟩
    · rw [hput]
      exact .replaces hat
    · rw [hput]
      exact .appends habsent
  | remove name =>
    rw [run, Element.takeAttribute_eq, Element.withoutAttribute]
    cases hfind : e.attribute? name with
    | none =>
      have habsent := Attribute.find?_eq_none_iff.mp hfind
      have hdrop : Attribute.drop name e.attributes = e.attributes :=
        List.eraseP_of_forall_not fun a ha => by simpa using habsent a ha
      rw [hdrop]
      exact .misses habsent
    | some a =>
      obtain ⟨hname, front, behind, hat, hfront⟩ := List.find?_eq_some_iff_append.mp hfind
      obtain rfl : a.name = name := by simpa using hname
      have hdrop : Attribute.drop a.name e.attributes = front ++ behind := by
        rw [Attribute.drop, hat, List.eraseP_append_right _ (by simpa using hfront),
          List.eraseP_cons_of_pos (by simp)]
      rw [hdrop]
      exact .takes hat

variable {e e' : Element} {call : AttributeCall} {answer : Option Attribute}

/-- Names stay different. -/
theorem Does.nodup_names (h : call.Does e answer e')
    (hnodup : (e.attributes.map Attribute.name).Nodup) :
    (e'.attributes.map Attribute.name).Nodup := by
  cases h with
  | replaces hat =>
    rw [hat] at hnodup
    simpa using hnodup
  | appends habsent =>
    rw [List.map_append, List.map_singleton, List.nodup_append]
    refine ⟨hnodup, List.nodup_singleton _, ?_⟩
    rintro n hn _ hname rfl
    obtain ⟨a, ha, rfl⟩ := List.mem_map.mp hn
    exact habsent a ha (List.mem_singleton.mp hname)
  | @takes _ _ front behind hat =>
    rw [hat] at hnodup
    refine hnodup.sublist (List.Sublist.map _ ?_)
    exact (List.sublist_cons_self _ behind).append_left front
  | misses _ => exact hnodup

/-- **A call decides about its name, and about no other.** -/
theorem Does.attribute? (h : call.Does e answer e')
    (hnodup : (e.attributes.map Attribute.name).Nodup) (n : Text) :
    e'.attribute? n = if call.name = n then call.leaves else e.attribute? n := by
  have hbehind := h.nodup_names hnodup
  unfold Element.attribute?
  cases h with
  | @replaces name old value front behind hat =>
    have hfirst := (Attribute.find?_of_nodup hbehind).1
    rw [hat, Attribute.find?_append_cons, Attribute.find?_append_cons]
    by_cases hn : name = n
    · subst hn
      simp [AttributeCall.name, leaves, hfirst]
    · simp [AttributeCall.name, hn]
  | @appends name value habsent =>
    rw [Attribute.find?_append_cons]
    by_cases hn : name = n
    · subst hn
      simp [AttributeCall.name, leaves, Attribute.find?_eq_none_iff.mpr habsent]
    · simp [AttributeCall.name, hn, Attribute.find?]
  | @takes name value front behind hat =>
    rw [hat] at hnodup ⊢
    obtain ⟨hfront, hrest⟩ := Attribute.find?_of_nodup hnodup
    have happend : Attribute.find? n (front ++ behind) =
        (Attribute.find? n front).or (Attribute.find? n behind) := List.find?_append
    rw [happend, Attribute.find?_append_cons]
    by_cases hn : name = n
    · subst hn
      simp [AttributeCall.name, leaves, hfront, hrest]
    · simp [AttributeCall.name, hn]
  | @misses name habsent =>
    by_cases hn : name = n
    · subst hn
      simp [AttributeCall.name, leaves, Attribute.find?_eq_none_iff.mpr habsent]
    · simp [AttributeCall.name, hn]

/-- Nothing but the attributes is changed. -/
theorem Does.eq_with (h : call.Does e answer e') :
    e' = { e with attributes := e'.attributes } := by
  cases h <;> rfl

end AttributeCall

/-! ## 3. All calls -/

namespace Element

/-- The element after calls, one after the other. -/
def afterCalls (e : Element) (calls : List AttributeCall) : Element :=
  calls.foldl (fun e call => (call.run e).2) e

variable {e : Element}

theorem afterCalls_concat (e : Element) (calls : List AttributeCall) (call : AttributeCall) :
    e.afterCalls (calls ++ [call]) = (call.run (e.afterCalls calls)).2 := by
  rw [afterCalls, List.foldl_append]
  rfl

theorem nodup_names_afterCalls (h : (e.attributes.map Attribute.name).Nodup)
    (calls : List AttributeCall) : ((e.afterCalls calls).attributes.map Attribute.name).Nodup := by
  induction calls using List.reverseRecOn with
  | nil => exact h
  | append_singleton calls call ih =>
    rw [afterCalls_concat]
    exact (call.does_run _).nodup_names ih

/-- **What is found under a name** is what the last call about it has left, and what was there if no
call was about it. -/
theorem attribute?_afterCalls (h : (e.attributes.map Attribute.name).Nodup)
    (calls : List AttributeCall) (n : Text) : (e.afterCalls calls).attribute? n =
      match (calls.filter (·.name == n)).getLast? with
      | none => e.attribute? n
      | some call => call.leaves := by
  induction calls using List.reverseRecOn with
  | nil => rfl
  | append_singleton calls call ih =>
    rw [afterCalls_concat, (call.does_run _).attribute? (nodup_names_afterCalls h calls), ih,
      List.filter_append]
    by_cases hname : call.name = n
    · simp [hname]
    · simp [hname]

theorem afterCalls_eq_with (e : Element) (calls : List AttributeCall) :
    e.afterCalls calls = { e with attributes := (e.afterCalls calls).attributes } := by
  induction calls using List.reverseRecOn with
  | nil => rfl
  | append_singleton calls call ih =>
    have hstep := (call.does_run (e.afterCalls calls)).eq_with
    rw [afterCalls_concat, hstep, ih]

/-- What calls make of the attributes of an element, as those of a map in order of insertion. -/
structure MapAfter (e : Element) (calls : List AttributeCall) : Prop where
  nodup_names : ((e.afterCalls calls).attributes.map Attribute.name).Nodup
  /-- Under a name is what the last call about it has left, or what was there at first. -/
  found : ∀ n, (e.afterCalls calls).attribute? n =
    match (calls.filter (·.name == n)).getLast? with
    | none => e.attribute? n
    | some call => call.leaves
  /-- Each call in its turn does one of the things that calls do, and answers accordingly. -/
  turn : ∀ before call behind, calls = before ++ call :: behind →
    call.Does (e.afterCalls before) (call.run (e.afterCalls before)).1
      (e.afterCalls (before ++ [call]))
  name_eq : (e.afterCalls calls).name = e.name
  declares_eq : (e.afterCalls calls).declares = e.declares
  branch_eq : (e.afterCalls calls).branch = e.branch
  selfClosing_eq : (e.afterCalls calls).selfClosing = e.selfClosing

/-- **The attributes of an element are a map in order of insertion**, if their names are different
at first: whatever calls are made, the names stay different, each name has its last value, and
nothing is moved.  Nothing else of the element ever changes. -/
theorem attributes_exact (h : (e.attributes.map Attribute.name).Nodup)
    (calls : List AttributeCall) : e.MapAfter calls where
  nodup_names := nodup_names_afterCalls h calls
  found := attribute?_afterCalls h calls
  turn before call behind _ := by
    rw [afterCalls_concat]
    exact call.does_run _
  name_eq := by rw [afterCalls_eq_with]
  declares_eq := by rw [afterCalls_eq_with]
  branch_eq := by rw [afterCalls_eq_with]
  selfClosing_eq := by rw [afterCalls_eq_with]

/-- A name that is removed and set again goes to the end. -/
def calledSample : Element :=
  { name := ['p'], attributes := [⟨['i', 'd'], ['a']⟩, ⟨['x'], ['b']⟩] }

def callsSample : List AttributeCall :=
  [.set ['x'] ['c'], .remove ['i', 'd'], .remove ['y'], .set ['i', 'd'] ['d']]

theorem attributes_calledSample :
    (calledSample.attributes.map Attribute.name).Nodup ∧ calledSample.MapAfter callsSample ∧
      (calledSample.afterCalls callsSample).attributes =
        [⟨['x'], ['c']⟩, ⟨['i', 'd'], ['d']⟩] := by
  have hnodup : (calledSample.attributes.map Attribute.name).Nodup := by decide
  exact ⟨hnodup, attributes_exact hnodup callsSample, by decide⟩

end Element

end Stencil
