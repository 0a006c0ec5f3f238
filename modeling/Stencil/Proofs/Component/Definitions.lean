/-
# Definitions are copies

A component keeps its definition in a document of its own, copied out of the source that declared
it.  The copy is faithful (`Document.CopyOf`): the tree is the same, its nodes are numbered from 1
on in the order in which they are listed, and the markup is that of the node it was copied from.  It
does not matter whether the node hangs at the root of its document, or whether the copy is put into
the table at once or made node by node (`Document.extractByCopying_eq`).

A declaration inside another one is copied twice, once alone and once in the copy of the other, and
neither copy loses anything.  Only when the body of a component is asked for is the declaration at
its top taken off, and nothing else with it (`Component.tree_anonymous`).

So what a library has under a key is a copy of the last element that was declared under it, and its
body is the markup of this element without the declaration (`Library.definitions_faithful`).
-/
import Stencil.Proofs.Component.Registration
import Stencil.Proofs.Document.Navigation
import Stencil.Proofs.Document.Rows

namespace Stencil

/-! ## 1. Copies in a document of their own -/

namespace Document

variable {d : Document}

/-- Copies a node into a document of its own, node by node.  The number of the copy goes into the
row of the root when all is copied. -/
def extractByCopying (d : Document) (id : NodeId) : Document :=
  let r := copyNode d d.size empty id root
  r.1.modifyChildren root (· ++ [r.2])

/-- **A copy that is made node by node** comes to the same document. -/
theorem extractByCopying_eq (hd : d.WellFormed) {id : NodeId} (hid : id < d.size) :
    d.extractByCopying id = d.extract id := by
  have hcopy := copyNode_eq hd hid (Nat.le_add_left _ _) empty root
  rw [extractByCopying, hcopy]
  exact planted_empty [d.tree id]

/-- `e` holds a copy of what stands at a node of `d`, and nothing else. -/
structure CopyOf (d e : Document) (id : NodeId) : Prop where
  wellFormed : e.WellFormed
  kind_root : e.kind root = .fragment
  /-- One node is at the top, and its number is 1. -/
  children_root : e.children root = [1]
  tree_eq : e.tree 1 = d.tree id
  size_eq : e.size = 1 + (d.tree id).size
  /-- The numbers follow one another in the order in which the nodes are listed. -/
  numbers_eq : e.descendants 1 = List.range' 1 (d.tree id).size
  /-- Node by node the same trees stand at the copies, in the same order. -/
  trees_eq : (e.descendants 1).map e.tree = (d.descendants id).map d.tree
  print_eq : e.print .verbatim = d.outer id

/-- **A node is copied faithfully**, wherever it stands. -/
theorem copyOf_extract (hd : d.WellFormed) (id : NodeId) : CopyOf d (d.extract id) id := by
  have he : (d.extract id).WellFormed := wellFormed_ofTrees _
  have hholds : (d.extract id).HoldsAll root 1 [d.tree id] := (grafted_ofTrees _).holdsAll
  have htree := hholds.1.tree_eq he
  refine ⟨he, rfl, rfl, htree, ?_, hholds.1.descendants_eq he, ?_, ?_⟩
  · rw [extract, size_ofTrees, Tree.sizeAll_cons, Tree.sizeAll_nil, Nat.add_zero]
  · rw [map_tree_descendants he, map_tree_descendants hd, htree]
  · rw [print, extract, tree_root_ofTrees, Tree.print, Tree.printAll, Tree.printAll,
      List.append_nil, outer]

end Document

/-! ## 2. Definitions -/

namespace Component

open Document (root)

variable {d : Document} {id : NodeId} {c : Component}

/-- The definition of a component has the tree that was declared at its top. -/
theorem tree_definition (x : Text × Tree) : (ofDeclaration x).definition.tree 1 = x.2 := by
  have hholds : (Document.ofTrees [x.2]).HoldsAll root 1 [x.2] :=
    (Document.grafted_ofTrees _).holdsAll
  exact hholds.1.tree_eq (Document.wellFormed_ofTrees _)

/-- Taking the declaration off changes the top of the tree that was declared. -/
theorem tree_anonymous (x : Text × Tree) :
    (ofDeclaration x).anonymous.tree root =
      .node .fragment [x.2.mapElement Element.withoutDeclaration] := by
  have hd := Document.wellFormed_ofTrees [x.2]
  have hrow : (Document.ofTrees [x.2]).row root = [] ++ (1, x.2) :: [] := by
    refine Document.row_eq rfl fun y hy => ?_
    obtain rfl := List.mem_singleton.mp hy
    simpa [Document.trees, Tree.topIds] using Document.trees_ofTrees [x.2]
  have hanonymous : (ofDeclaration x).anonymous =
      (Document.ofTrees [x.2]).modifyElement 1 Element.withoutDeclaration := rfl
  rw [hanonymous, Document.tree_root (hd.modifyElement 1 _), Document.trees_eq_map_row,
    Document.row_modifyElement hd hrow, Document.kind_modifyElement, if_neg (by decide),
    Document.kind_root_ofTrees]
  rfl

/-- The component is what the element at a node of a document declares. -/
structure DeclaredBy (d : Document) (id : NodeId) (c : Component) : Prop where
  declares : ∃ e, d.element? id = some e ∧ e.declares = some c.name
  key_eq : c.key = ComponentName.key c.name
  ne_nil : c.key ≠ []
  /-- The definition is a copy of the element. -/
  copy : Document.CopyOf d c.definition id
  /-- The body is the markup of the element, from whose start tag the declaration is taken off. -/
  body_eq : c.body =
    ((d.tree id).mapElement Element.withoutDeclaration).print .verbatim

/-- **What a node declares is a copy of it.** -/
theorem declaredBy_of_declaredAt? (hd : d.WellFormed) (h : declaredAt? d id = some c) :
    DeclaredBy d id c := by
  have hbody : declaredAt? d id =
      (d.tree id).declared?.map fun name => ofDeclaration (name, d.tree id) := declaredAt?_eq d id
  obtain ⟨name, hname, rfl⟩ := Option.map_eq_some_iff.mp (hbody.symm.trans h)
  obtain ⟨hdeclares, hkey⟩ := Option.filter_eq_some_iff.mp hname
  have hne : ComponentName.key name ≠ [] := by simpa using hkey
  rw [Document.kind_tree] at hdeclares
  refine ⟨Option.bind_eq_some_iff.mp hdeclares, rfl, hne, Document.copyOf_extract hd id, ?_⟩
  rw [body, Document.print, tree_anonymous, Tree.print, Tree.printAll, Tree.printAll,
    List.append_nil]

end Component

/-! ## 3. Libraries -/

namespace Library

open Document (root)
open Component (DeclaredBy declaredAt? declaredIn)

variable {l l' : Library} {d : Document}

/-- What a library that had `l` before finds under a key when the declarations of a document were
added to it. -/
inductive Finds (l : Library) (d : Document) (k : Text) : Option Component → Prop
  /-- The last element that is declared under the key. -/
  | declared {before behind : List NodeId} {id : NodeId} {c : Component}
    (hnodes : d.descendants root = before ++ id :: behind) (hdeclared : DeclaredBy d id c)
    (hkey : c.key = k) (hlast : ∀ x ∈ behind, ∀ c, declaredAt? d x = some c → c.key ≠ k) :
    Finds l d k (some c)
  /-- What was there before, if no element is declared under the key. -/
  | kept (hnone : ∀ x ∈ d.descendants root, ∀ c, declaredAt? d x = some c → c.key ≠ k) :
    Finds l d k (l.lookup k)

/-- **After a call each key finds a copy of the last element that is declared under it**, or what it
found before. -/
theorem finds_of_register (hd : d.WellFormed) (k : Text) :
    Finds l d k (((declaredIn d).foldl insert l).lookup k) := by
  have hunder : ((declaredIn d).filter fun c => c.key == k) =
      (d.descendants root).filterMap fun id => (declaredAt? d id).filter fun c => c.key == k := by
    rw [declaredIn, List.filter_filterMap]
  have hnot : ∀ {x : NodeId}, (declaredAt? d x).filter (fun c => c.key == k) = none →
      ∀ c, declaredAt? d x = some c → c.key ≠ k := by
    intro x hx c hc hkey
    rw [hc, Option.filter_some, if_pos (beq_iff_eq.mpr hkey)] at hx
    cases hx
  rw [lookup_foldl_insert, hunder]
  rcases List.eq_nil_or_concat ((d.descendants root).filterMap fun id =>
      (declaredAt? d id).filter fun c => c.key == k) with hnil | ⟨others, c, hconcat⟩
  · rw [hnil, List.getLast?_nil, Option.none_or]
    exact .kept fun x hx => hnot (List.filterMap_eq_nil_iff.mp hnil x hx)
  · rw [List.concat_eq_append] at hconcat
    rw [hconcat, List.getLast?_concat, Option.some_or]
    obtain ⟨front, back, hsplit, -, hback⟩ := List.filterMap_eq_append_iff.mp hconcat
    obtain ⟨skipped, id, behind, rfl, -, hid, hbehind⟩ := List.filterMap_eq_cons_iff.mp hback
    obtain ⟨hdeclared, hkey⟩ := Option.filter_eq_some_iff.mp hid
    have hnodes : d.descendants root = (front ++ skipped) ++ id :: behind := by
      rw [hsplit, List.append_assoc]
    exact .declared hnodes (Component.declaredBy_of_declaredAt? hd hdeclared) (beq_iff_eq.mp hkey)
      fun x hx => hnot (List.filterMap_eq_nil_iff.mp hbehind x hx)

/-- A call that does not fail adds the declarations of the document that its source writes. -/
theorem exists_of_register {source : Text} {count : Nat} (h : l.register source = .ok (l', count)) :
    ∃ d, Document.parse source = .ok d ∧ l' = (declaredIn d).foldl insert l := by
  obtain ⟨d, hparse, heq⟩ := exists_of_map_eq_ok h
  exact ⟨d, hparse, (congrArg Prod.fst heq).symm⟩

/-- An element of one of the sources declares the component under the key. -/
def DeclaredAmong (sources : List Text) (k : Text) (c : Component) : Prop :=
  ∃ source ∈ sources, ∃ d id, Document.parse source = .ok d ∧ id ∈ d.descendants root ∧
    DeclaredBy d id c ∧ c.key = k

/-- **Whatever a library holds after calls is a copy of an element** of one of the sources. -/
theorem declaredAmong_of_afterCalls (sources : List Text) {k : Text} {c : Component}
    (h : (afterCalls sources).lookup k = some c) : DeclaredAmong sources k c := by
  induction sources using List.reverseRecOn with
  | nil => exact absurd h nofun
  | append_singleton sources source ih =>
    have hbefore (h : (afterCalls sources).lookup k = some c) :
        DeclaredAmong (sources ++ [source]) k c := by
      obtain ⟨source', hmem, hdeclared⟩ := ih h
      exact ⟨source', List.mem_append_left _ hmem, hdeclared⟩
    rw [afterCalls_concat, afterCall] at h
    cases hregister : (afterCalls sources).register source with
    | error fault =>
      rw [hregister] at h
      exact hbefore h
    | ok r =>
      obtain ⟨l, count⟩ := r
      obtain ⟨d, hparse, rfl⟩ := exists_of_register hregister
      have hd := Document.wellFormed_of_made (.parsed hparse)
      have hfinds := finds_of_register (l := afterCalls sources) hd k
      rw [hregister] at h
      dsimp only at h
      rw [h] at hfinds
      generalize hfound : some c = found at hfinds
      cases hfinds with
      | declared hnodes hdeclared hkey _ =>
        obtain rfl := Option.some.inj hfound
        refine ⟨source, by simp, d, _, hparse, ?_, hdeclared, hkey⟩
        simp [hnodes]
      | kept => exact hbefore hfound.symm

/-- **Copies and definitions are faithful.**  A node that is copied into a document of its own
stands there as it stood; a call leaves under each key a copy of the last element that its source
declares under it, or what was there before; and so all that a library holds after any calls are
copies of elements of their sources. -/
theorem definitions_faithful :
    (∀ (d : Document) (id : Nat), d.WellFormed → id < d.size →
      d.extractByCopying id = d.extract id ∧ Document.CopyOf d (d.extract id) id) ∧
    (∀ (l l' : Library) (source : Text) (count : Nat), l.register source = .ok (l', count) →
      ∃ d, Document.parse source = .ok d ∧ ∀ k, Finds l d k (l'.lookup k)) ∧
    ∀ (sources : List Text) (k : Text) (c : Component), (afterCalls sources).lookup k = some c →
      DeclaredAmong sources k c := by
  refine ⟨fun d id hd hid => ?_, fun l l' source count h => ?_, fun sources k c h => ?_⟩
  · exact ⟨Document.extractByCopying_eq hd hid, Document.copyOf_extract hd id⟩
  · obtain ⟨d, hparse, rfl⟩ := exists_of_register h
    have hd := Document.wellFormed_of_made (.parsed hparse)
    exact ⟨d, hparse, finds_of_register hd⟩
  · exact declaredAmong_of_afterCalls sources h

/-- A declaration with a place in a chain, inside another declaration. -/
def nestedSource : Text := "<a @name=\"x\"><b @if=\"1\" @name=\"y\">t</b></a>".toList

/-- What it writes. -/
def nestedSample : Document :=
  .ofTrees [.node (.element { name := ['a'], declares := some ['x'] })
    [.node (.element { name := ['b'], declares := some ['y'], branch := some (.when ['1']) })
      [.leaf (.text ['t'])]]]

/-- What the library holds that it was registered in. -/
def nestedLibrary : Library := (declaredIn nestedSample).foldl insert .empty

theorem definitions_nestedSample :
    nestedSample.WellFormed ∧ 2 < nestedSample.size ∧
    Document.CopyOf nestedSample (nestedSample.extract 2) 2 ∧
    empty.register nestedSource = .ok (nestedLibrary, 2) ∧
    nestedLibrary.entries.map (fun x => (x.1, x.2.body)) =
      [(['X'], "<a><b @name=\"y\" @if=\"1\">t</b></a>".toList),
        (['Y'], "<b @if=\"1\">t</b>".toList)] ∧
    (∃ d, Document.parse nestedSource = .ok d ∧ ∀ k, Finds empty d k (nestedLibrary.lookup k)) ∧
    ∃ c, nestedLibrary.lookup ['Y'] = some c ∧ DeclaredAmong [nestedSource] ['Y'] c := by
  obtain ⟨hcopied, hregistered, hheld⟩ := definitions_faithful
  have hd : nestedSample.WellFormed := Document.wellFormed_ofTrees _
  have hregister : empty.register nestedSource = .ok (nestedLibrary, 2) := by decide +kernel
  have hlookup : (nestedLibrary.lookup ['Y']).isSome := by decide +kernel
  obtain ⟨c, hc⟩ := Option.isSome_iff_exists.mp hlookup
  have hcalls : afterCalls [nestedSource] = nestedLibrary := by
    have hcall : afterCalls [nestedSource] = empty.afterCall nestedSource := rfl
    rw [hcall, afterCall, hregister]
  refine ⟨hd, by decide, (hcopied _ 2 hd (by decide)).2, hregister, by decide +kernel,
    hregistered _ _ _ _ hregister, c, hc, ?_⟩
  exact hheld _ _ _ (hcalls ▸ hc)

end Library

end Stencil
