/-
# What a library holds after calls

A library is filled by calls, each with a source.  What a source declares can be said of the trees
in it, without the table that they are numbered in: `Tree.declarations` goes through the trees from
the top down and from left to right and takes those whose top declares a name that has a key.

A call adds one component for each declaration, in this order (`register_eq`), or nothing if the
source is no markup.  So after any number of calls a library holds what was declared last under each
key (`Records`), whichever calls failed in between.
-/
import Stencil.Proofs.Component.Entries
import Stencil.Proofs.Document.Edits
import Stencil.Proofs.Document.Walks

namespace Stencil

/-! ## 1. Declarations -/

namespace Tree

/-- The name that the top of the tree declares a component under.  One without a key declares
none. -/
def declared? (t : Tree) : Option Text :=
  (t.kind.element?.bind Element.declares).filter fun name => ComponentName.key name != []

/-- **What trees declare**: names, each with the tree that it stands for. -/
def declarations (ts : List Tree) : List (Text × Tree) :=
  (subtreesAll ts).filterMap fun t => t.declared?.map (·, t)

/-- There is a declaration for each element, at any depth, that declares a name with a key. -/
theorem length_declarations (ts : List Tree) :
    (declarations ts).length = (subtreesAll ts).countP fun t => t.declared?.isSome := by
  rw [declarations, List.length_filterMap_eq_countP]
  refine List.countP_congr fun t _ => ?_
  rw [Option.isSome_map]

/-- A declaration is a name with a key and the tree whose element declares it. -/
theorem of_mem_declarations {ts : List Tree} {x : Text × Tree} (h : x ∈ declarations ts) :
    ComponentName.key x.1 ≠ [] ∧
      ∃ e children, x.2 = .node (.element e) children ∧ e.declares = some x.1 := by
  obtain ⟨t, -, ht⟩ := List.mem_filterMap.mp h
  obtain ⟨name, hname, rfl⟩ := Option.map_eq_some_iff.mp ht
  obtain ⟨hdeclares, hkey⟩ := Option.filter_eq_some_iff.mp hname
  obtain ⟨e, he, hdeclares⟩ := Option.bind_eq_some_iff.mp hdeclares
  obtain ⟨kind, children⟩ := t
  cases kind with
  | element e' =>
    obtain rfl := Option.some.inj he
    exact ⟨by simpa using hkey, e', children, rfl, hdeclares⟩
  | _ => exact absurd he nofun

end Tree

namespace Component

/-- The component that is made of a declaration. -/
def ofDeclaration (x : Text × Tree) : Component :=
  ⟨ComponentName.key x.1, x.1, .ofTrees [x.2]⟩

/-- The component that a node declares is told by the tree that stands there. -/
theorem declaredAt?_eq (d : Document) (id : NodeId) :
    declaredAt? d id = (d.tree id).declared?.map fun name => ofDeclaration (name, d.tree id) := by
  rw [declaredAt?, Tree.declared?, Document.kind_tree, ← Document.element?]
  cases (d.element? id).bind Element.declares with
  | none => rfl
  | some name =>
    by_cases hkey : ComponentName.key name = []
    · simp [hkey]
    · simp [hkey, ofDeclaration, Document.extract]

/-- **The components of a document are made of what its trees declare**, in their order. -/
theorem declaredIn_ofTrees (ts : List Tree) :
    declaredIn (.ofTrees ts) = (Tree.declarations ts).map ofDeclaration := by
  have hlist : ∀ ids : List NodeId, ids.filterMap (declaredAt? (.ofTrees ts)) =
      (ids.map (Document.ofTrees ts).tree).filterMap
        fun t => (t.declared?.map (·, t)).map ofDeclaration := by
    intro ids
    rw [List.filterMap_map]
    refine List.filterMap_congr fun id _ => ?_
    rw [declaredAt?_eq, Function.comp_apply, Option.map_map]
    rfl
  rw [declaredIn, hlist, Document.map_tree_descendants (Document.wellFormed_ofTrees ts),
    Document.tree_root_ofTrees, Tree.subtrees_node, List.filterMap_cons_none rfl,
    ← List.map_filterMap, Tree.declarations]

end Component

/-! ## 2. Calls -/

namespace Library

/-- What a source declares; one that is no markup declares nothing. -/
def declarationsOf (source : Text) : List (Text × Tree) :=
  match Tree.parse source with
  | .ok ts => Tree.declarations ts
  | .error _ => []

/-- The library after a call with a source.  A call that fails leaves it as it was. -/
def afterCall (l : Library) (source : Text) : Library :=
  match l.register source with
  | .ok (l', _) => l'
  | .error _ => l

/-- The library after calls with the given sources, one after the other, empty at first. -/
def afterCalls (sources : List Text) : Library := sources.foldl afterCall .empty

/-- **A call adds what its source declares**, and tells how much that is. -/
theorem register_eq (l : Library) (source : Text) :
    l.register source = (Tree.parse source).map fun ts =>
      (((Tree.declarations ts).map Component.ofDeclaration).foldl insert l,
        (Tree.declarations ts).length) := by
  rw [register, Document.parse]
  cases Tree.parse source with
  | error fault => rfl
  | ok ts =>
    simp only [Except.map, Component.declaredIn_ofTrees, List.length_map]

theorem afterCalls_concat (sources : List Text) (source : Text) :
    afterCalls (sources ++ [source]) = (afterCalls sources).afterCall source := by
  rw [afterCalls, List.foldl_append]
  rfl

theorem afterCall_eq (l : Library) (source : Text) :
    l.afterCall source =
      ((declarationsOf source).map Component.ofDeclaration).foldl insert l := by
  rw [afterCall, register_eq, declarationsOf]
  cases Tree.parse source <;> rfl

/-- **Calls add what their sources declare**, one after the other. -/
theorem afterCalls_eq (sources : List Text) :
    afterCalls sources =
      ((sources.flatMap declarationsOf).map Component.ofDeclaration).foldl insert .empty := by
  have hfrom : ∀ l : Library, sources.foldl afterCall l =
      ((sources.flatMap declarationsOf).map Component.ofDeclaration).foldl insert l := by
    induction sources with
    | nil => exact fun l => rfl
    | cons source sources ih =>
      intro l
      rw [List.foldl_cons, ih, afterCall_eq, List.flatMap_cons, List.map_append, List.foldl_append]
  exact hfrom .empty

/-! ## 3. Histories -/

/-- The component stands where it belongs: under the key of its name, and with the element that
declares this name as the one node at the top of its document. -/
structure Filed (k : Text) (c : Component) : Prop where
  key_eq : c.key = k
  key_name : ComponentName.key c.name = k
  ne_nil : k ≠ []
  alphanum : ∀ ch ∈ k, ch.isAlphanum = true
  declares : ∃ id e, c.definition.children Document.root = [id] ∧
    c.definition.element? id = some e ∧ e.declares = some c.name

/-- What is made of a declaration is filed under its key. -/
theorem filed_ofDeclaration {sources : List Text} {x : Text × Tree}
    (h : x ∈ sources.flatMap declarationsOf) :
    Filed (ComponentName.key x.1) (Component.ofDeclaration x) := by
  obtain ⟨source, -, hx⟩ := List.mem_flatMap.mp h
  rw [declarationsOf] at hx
  cases hparse : Tree.parse source with
  | error fault =>
    rw [hparse] at hx
    exact absurd hx List.not_mem_nil
  | ok ts =>
    rw [hparse] at hx
    obtain ⟨hkey, e, children, htree, hdeclares⟩ := Tree.of_mem_declarations hx
    refine ⟨rfl, rfl, hkey, fun ch hch => ComponentName.isAlphanum_of_mem_key hch, 1, e, rfl, ?_,
      hdeclares⟩
    rw [Component.ofDeclaration, htree]
    rfl

/-- The library holds what was declared, the last one of a key, in the order of the keys. -/
structure Records (l : Library) (declared : List (Text × Tree)) : Prop where
  /-- A key finds what was made of the last declaration with this key, if there is one. -/
  lookup_eq : ∀ k : Text, l.lookup k =
    ((declared.filter fun x => ComponentName.key x.1 == k).getLast?).map Component.ofDeclaration
  filed : ∀ entry ∈ l.entries, Filed entry.1 entry.2
  /-- The keys are listed in the order of their bytes, each once. -/
  keys_lt : l.keys.Pairwise fun k k' => Text.bytes k < Text.bytes k'
  length_keys : l.keys.length = l.size

section Records

variable {l : Library} {declared : List (Text × Tree)} (h : l.Records declared)

include h

/-- If no two declarations have the same key, each of them is found. -/
theorem Records.lookup_of_mem (hnodup : (declared.map fun x => ComponentName.key x.1).Nodup)
    {x : Text × Tree} (hx : x ∈ declared) :
    l.lookup (ComponentName.key x.1) = some (Component.ofDeclaration x) := by
  rw [h.lookup_eq]
  have hmem : x ∈ declared.filter fun y => ComponentName.key y.1 == ComponentName.key x.1 :=
    List.mem_filter.mpr ⟨hx, beq_self_eq_true _⟩
  cases hlast : (declared.filter fun y =>
      ComponentName.key y.1 == ComponentName.key x.1).getLast? with
  | none =>
    rw [List.getLast?_eq_none_iff.mp hlast] at hmem
    exact absurd hmem List.not_mem_nil
  | some y =>
    obtain ⟨hy, hkey⟩ := List.mem_filter.mp (List.mem_of_getLast? hlast)
    obtain rfl := List.inj_on_of_nodup_map hnodup hy hx (beq_iff_eq.mp hkey)
    rfl

/-- What is found has the key that it is found under. -/
theorem Records.key_of_lookup {k : Text} {c : Component} (hc : l.lookup k = some c) :
    c.key = k := by
  rw [h.lookup_eq] at hc
  obtain ⟨x, hx, rfl⟩ := Option.map_eq_some_iff.mp hc
  exact beq_iff_eq.mp (List.mem_filter.mp (List.mem_of_getLast? hx)).2

/-- A name in small letters is never that of a component. -/
theorem Records.lookup_of_isLower {name : Text} (hne : name ≠ [])
    (hlower : ∀ c ∈ name, c.isLower = true) : l.lookup name = none := by
  have hnone : (declared.filter fun x => ComponentName.key x.1 == name) = [] := by
    refine List.filter_eq_nil_iff.mpr fun x _ hkey => ?_
    exact ComponentName.key_ne_of_isLower hne hlower (beq_iff_eq.mp hkey)
  rw [h.lookup_eq, hnone]
  rfl

end Records

theorem records_afterCalls (sources : List Text) :
    (afterCalls sources).Records (sources.flatMap declarationsOf) := by
  have hfiled : ∀ entry ∈ (afterCalls sources).entries, Filed entry.1 entry.2 := by
    intro entry hentry
    rw [afterCalls_eq] at hentry
    rcases mem_foldl_insert hentry with ⟨c, hc, rfl⟩ | hempty
    · obtain ⟨x, hx, rfl⟩ := List.mem_map.mp hc
      exact filed_ofDeclaration hx
    · exact absurd hempty List.not_mem_nil
  refine ⟨fun k => ?_, hfiled, ?_, List.length_map ..⟩
  · have hkeys : ((sources.flatMap declarationsOf).map Component.ofDeclaration).filter
        (fun c => c.key == k) =
          ((sources.flatMap declarationsOf).filter fun x => ComponentName.key x.1 == k).map
            Component.ofDeclaration := List.filter_map ..
    have hempty : empty.lookup k = none := rfl
    rw [afterCalls_eq, lookup_foldl_insert, hkeys, List.getLast?_map, hempty, Option.or_none]
  · have hordered : Ordered (afterCalls sources).entries := by
      rw [afterCalls_eq]
      exact ordered_foldl_insert List.Pairwise.nil
    refine List.pairwise_map.mpr (List.Pairwise.imp_of_mem (fun hx hy hlt => ?_) hordered)
    exact Text.bytes_lt_bytes (hfiled _ hx).alphanum (hfiled _ hy).alphanum hlt

/-- What is found was made of a declaration in one of the sources. -/
theorem exists_declaration {sources : List Text} {k : Text} {c : Component}
    (hc : (afterCalls sources).lookup k = some c) :
    ∃ source ∈ sources, ∃ ts, Tree.parse source = .ok ts ∧
      ∃ x ∈ Tree.declarations ts, c = Component.ofDeclaration x := by
  rw [(records_afterCalls sources).lookup_eq] at hc
  obtain ⟨x, hlast, rfl⟩ := Option.map_eq_some_iff.mp hc
  obtain ⟨source, hsource, hx⟩ :=
    List.mem_flatMap.mp (List.mem_filter.mp (List.mem_of_getLast? hlast)).1
  rw [declarationsOf] at hx
  cases hparse : Tree.parse source with
  | error fault =>
    rw [hparse] at hx
    exact absurd hx List.not_mem_nil
  | ok ts =>
    rw [hparse] at hx
    exact ⟨source, hsource, ts, hparse, x, hx, rfl⟩

/-- **After any calls a library holds what they declared**, and one more call either fails, which it
does if its source is no markup, and changes nothing, or adds what its source declares and tells how
many elements declare something in it. -/
theorem history_of_calls (sources : List Text) :
    (afterCalls sources).Records (sources.flatMap declarationsOf) ∧
    ∀ source : Text,
      (∀ fault, (afterCalls sources).register source = .error fault →
        Tree.parse source = .error fault ∧ afterCalls (sources ++ [source]) = afterCalls sources) ∧
      ∀ l count, (afterCalls sources).register source = .ok (l, count) →
        afterCalls (sources ++ [source]) = l ∧
        ∃ ts, Tree.parse source = .ok ts ∧
          count = (Tree.subtreesAll ts).countP fun t => t.declared?.isSome := by
  refine ⟨records_afterCalls sources, ?_⟩
  intro source
  rw [afterCalls_concat, afterCall, register_eq]
  cases Tree.parse source with
  | error found =>
    constructor
    · intro fault h
      obtain rfl := Except.error.inj h
      exact ⟨rfl, rfl⟩
    · intro l count h
      exact absurd h nofun
  | ok ts =>
    constructor
    · intro fault h
      exact absurd h nofun
    · intro l count h
      obtain ⟨rfl, rfl⟩ := Prod.mk.inj (Except.ok.inj h)
      exact ⟨rfl, ts, rfl, Tree.length_declarations ts⟩

end Library

end Stencil
