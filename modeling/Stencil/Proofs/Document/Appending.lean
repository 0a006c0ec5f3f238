/-
# Documents made token by token

By definition a source is read as trees, and a document is made of them all at once: the numbers of
its nodes are those of `Tree.numbered`.  A reader that goes through the source once has no trees to
number.  It keeps a document and the stack of the elements that are open in it, appends a node to
the innermost of them for each token that leaves one, and takes an element off the stack for its end
tag (`appendToken`).  This is the loop of the parser, with its `append` for the one and its
`handle_end` for the other: the number of a node is what the table gives it when it is made, and the
name that an end tag is compared with is looked up in the table.

Both come to the same, faults included (`parseByAppending_eq`).  What carries the proof is how the
table mirrors the trees that are built while elements are open (`Mirrors`): each open element was
appended to a document that mirrors what is outside of it, and the trees that are finished in it
were planted under it.  That planting trees one after the other is planting all of them
(`planted_planted`), and that planting them under a new node is planting one tree
(`planted_append`), is all that numbers have to do with.
-/
import Stencil.Proofs.Document.Splice
import Stencil.Proofs.Markup.Building

namespace Stencil.Document

open Stencil.Tree (topIds numberedAll leaf)

/-! ## 1. One token after the other -/

/-- The innermost of the open elements, or the root if none is open. -/
def innermost : List (NodeId × Nat) → NodeId
  | [] => root
  | (id, _) :: _ => id

/-- The name of the element at a node. -/
def nameAt (d : Document) (id : NodeId) : Text := ((d.element? id).map Element.name).getD []

/-- What a token at `position` makes of a document and of the elements that are open in it,
innermost first, each with the place of its start tag. -/
def appendToken (d : Document) (opened : List (NodeId × Nat)) (position : Nat) :
    Token → Except MarkupFault (Document × List (NodeId × Nat))
  | .text t => .ok (d.append (innermost opened) (.text t), opened)
  | .doctype t => .ok (d.append (innermost opened) (.doctype t), opened)
  | .dropped => .ok (d, opened)
  | .empty e => .ok (d.append (innermost opened) (.element e), opened)
  | .opening e =>
    let grown := d.append (innermost opened) (.element e)
    .ok (grown, if e.isVoid then opened else (d.size, position) :: opened)
  | .closing name =>
    if isVoidName name then .ok (d, opened)
    else
      match opened with
      | [] => .error (.unexpectedEnd name position)
      | (id, _) :: outer =>
        if Text.sameFold (d.nameAt id) name then .ok (d, outer)
        else .error (.mismatched (d.nameAt id) name position)

/-- Appends what tokens leave; `fault` is what ended the tokens. -/
def appendTokens (fault : Option MarkupFault) :
    Document → List (NodeId × Nat) → List (Nat × Token) → Except MarkupFault Document
  | d, opened, [] =>
    match fault, opened with
    | some found, _ => .error found
    | none, [] => .ok d
    | none, (id, position) :: _ => .error (.unclosed (d.nameAt id) position)
  | d, opened, (position, token) :: rest =>
    match d.appendToken opened position token with
    | .error found => .error found
    | .ok (d', opened') => appendTokens fault d' opened' rest

/-- **The document that a text of markup writes**, made token by token. -/
def parseByAppending (source : Text) : Except MarkupFault Document :=
  let tokens := Token.scan source
  appendTokens tokens.fault empty [] tokens.items

/-! ## 2. Planting trees -/

variable {d : Document} {p q : NodeId}

/-- The trees as the last children of a node, with the next free numbers. -/
def planted (d : Document) (p : NodeId) (ts : List Tree) : Document :=
  (d.grown p ts).modifyChildren p (· ++ topIds d.size ts)

@[simp] theorem size_planted (d : Document) (p : NodeId) (ts : List Tree) :
    (d.planted p ts).size = d.size + Tree.sizeAll ts := by
  simp [planted, size_grown]

theorem append_eq_planted (d : Document) (p : NodeId) (kind : NodeKind) :
    d.append p kind = d.planted p [leaf kind] := append_eq d p kind

theorem modifyChildren_modifyChildren (d : Document) (p : NodeId)
    (f g : List NodeId → List NodeId) :
    (d.modifyChildren p f).modifyChildren p g = d.modifyChildren p fun cs => g (f cs) := by
  refine ext_node? fun x => ?_
  simp only [modifyChildren, node?_modify]
  by_cases hx : p = x
  · simp [hx, Function.comp_def]
  · simp [hx]

theorem modifyChildren_comm (d : Document) (hne : p ≠ q) (f g : List NodeId → List NodeId) :
    (d.modifyChildren p f).modifyChildren q g = (d.modifyChildren q g).modifyChildren p f := by
  refine ext_node? fun x => ?_
  simp only [modifyChildren, node?_modify]
  by_cases hx : p = x
  · simp [← hx, hne.symm]
  · simp [hx]

/-- New nodes do not get in the way of a row. -/
theorem grown_modifyChildren (hp : p < d.size) (f : List NodeId → List NodeId) (q : NodeId)
    (ts : List Tree) : (d.modifyChildren p f).grown q ts = (d.grown q ts).modifyChildren p f := by
  refine ext_node? fun x => ?_
  simp only [modifyChildren, node?_modify, node?_grown, size_modify]
  by_cases hx : p = x
  · simp [← hx, hp]
  · simp [hx]

/-- **Trees can be planted one after the other.** -/
theorem planted_planted (hp : p < d.size) (ss ts : List Tree) :
    (d.planted p ss).planted p ts = d.planted p (ss ++ ts) := by
  have hsize : p < (d.grown p ss).size := by
    rw [size_grown]
    exact Nat.lt_add_right _ hp
  rw [planted, size_planted, planted, grown_modifyChildren hsize, grown_grown,
    modifyChildren_modifyChildren, planted, Tree.topIds_append]
  simp

/-- **Trees under a new node are one tree.** -/
theorem planted_append (hp : p < d.size) (kind : NodeKind) (ts : List Tree) :
    (d.append p kind).planted d.size ts = d.planted p [.node kind ts] := by
  have hmade : (⟨d.nodes.push ⟨kind, some p, []⟩⟩ : Document).size = d.size + 1 := by
    simp [size]
  have hgrown : p < (⟨d.nodes.push ⟨kind, some p, []⟩⟩ : Document).size := by
    rw [hmade]
    exact Nat.lt_succ_of_lt hp
  rw [planted, append, size_modifyChildren, hmade, grown_modifyChildren hgrown,
    modifyChildren_comm _ (Nat.ne_of_lt hp), modifyChildren_grown _ _ _ _ (List.nil_append _)]
  rfl

/-- **Trees are planted under the top of a planted tree** as its last children. -/
theorem planted_inside (hp : p < d.size) (kind : NodeKind) (ss ts : List Tree) :
    (d.planted p [.node kind ss]).planted d.size ts = d.planted p [.node kind (ss ++ ts)] := by
  have hsize : d.size < (d.append p kind).size := by
    rw [append_eq_planted, size_planted, Tree.sizeAll_cons]
    have hpos := (leaf kind).size_pos
    omega
  rw [← planted_append hp, planted_planted hsize, planted_append hp]

theorem kind_planted (d : Document) (p : NodeId) (kind : NodeKind) (ts : List Tree) :
    (d.planted p [.node kind ts]).kind d.size = kind := by
  have hholds : (d.grown p [.node kind ts]).HoldsAll p d.size [.node kind ts] := holdsAll_grown
  obtain ⟨⟨hnode, -⟩, -⟩ := hholds
  rw [planted, kind_modifyChildren]
  exact kind_of_node? hnode

/-- Trees that are planted at the root of the empty document make a document. -/
theorem planted_empty (ts : List Tree) : empty.planted root ts = ofTrees ts := by
  rw [planted, modifyChildren, Document.modify, ofTrees, Document.mk.injEq, ← Array.toList_inj,
    Array.toList_modify]
  simp [grown, empty, ofTrees, topIds, numberedAll, root, size]

/-! ## 3. Open elements -/

/-- The document mirrors the trees that are built while elements are open: the same elements are
open on both stacks, and an open element is planted, with the trees that are finished in it (last
first), in a document that mirrors what is outside. -/
inductive Mirrors : Document → List (NodeId × Nat) → List OpenElement → List Tree → Prop
  | top {done : List Tree} : Mirrors (ofTrees done.reverse) [] [] done
  | inside {d : Document} {opened : List (NodeId × Nat)} {outer : List OpenElement}
      {o : OpenElement} {done : List Tree} (h : Mirrors d opened outer o.before) :
    Mirrors (d.planted (innermost opened) [.node (.element o.element) done.reverse])
      ((d.size, o.position) :: opened) (o :: outer) done

namespace Mirrors

variable {opened : List (NodeId × Nat)} {outer outer' : List OpenElement} {done done' : List Tree}
  {position : Nat} {token : Token}

/-- The innermost open element is in the table. -/
theorem innermost_lt (h : Mirrors d opened outer done) : innermost opened < d.size := by
  cases h with
  | top =>
    rw [size_ofTrees, innermost, root]
    exact Nat.lt_add_right _ Nat.one_pos
  | @inside d _ _ o done h =>
    have hpos := (Tree.node (.element o.element) done.reverse).size_pos
    simp only [size_planted, innermost, Tree.sizeAll_cons]
    exact Nat.lt_add_of_pos_right (Nat.add_pos_left hpos _)

/-- **A tree that is finished is planted under the innermost open element.** -/
theorem planted (h : Mirrors d opened outer done) (t : Tree) :
    Mirrors (d.planted (innermost opened) [t]) opened outer (t :: done) := by
  cases h with
  | top =>
    have hroot : root < empty.size := Nat.one_pos
    rw [innermost, ← planted_empty, planted_planted hroot, ← List.reverse_cons, planted_empty]
    exact .top
  | inside h =>
    rw [innermost, planted_inside h.innermost_lt, ← List.reverse_cons]
    exact .inside h

/-- A node without children is appended as a tree that is finished. -/
theorem append (h : Mirrors d opened outer done) (kind : NodeKind) :
    Mirrors (d.append (innermost opened) kind) opened outer (leaf kind :: done) := by
  rw [append_eq_planted]
  exact h.planted (leaf kind)

/-- **An open element is found in the table**, and taking it off the stack leaves it finished. -/
theorem exists_of_cons {o : OpenElement} (h : Mirrors d opened (o :: outer) done) :
    ∃ id opened', opened = (id, o.position) :: opened' ∧ d.nameAt id = o.element.name ∧
      Mirrors d opened' outer (.node (.element o.element) done.reverse :: o.before) := by
  cases h with
  | inside h =>
    refine ⟨_, _, rfl, ?_, h.planted _⟩
    rw [nameAt, element?, kind_planted]
    rfl

theorem eq_nil (h : Mirrors d opened [] done) : opened = [] ∧ d = ofTrees done.reverse := by
  cases h with
  | top => exact ⟨rfl, rfl⟩

/-- **A step on one stack is a step on the other.** -/
theorem exists_appendToken (h : Mirrors d opened outer done)
    (hbuilds : token.Builds position outer done outer' done') :
    ∃ d' opened', d.appendToken opened position token = .ok (d', opened') ∧
      Mirrors d' opened' outer' done' := by
  cases hbuilds with
  | text => exact ⟨_, _, rfl, h.append _⟩
  | doctype => exact ⟨_, _, rfl, h.append _⟩
  | dropped => exact ⟨_, _, rfl, h⟩
  | empty => exact ⟨_, _, rfl, h.append _⟩
  | bare hvoid =>
    refine ⟨_, _, ?_, h.append _⟩
    simp [appendToken, hvoid]
  | @opening _ _ e hvoid =>
    -- an element that was just opened is a leaf
    have hopened := @Mirrors.inside d opened outer ⟨e, position, done⟩ [] h
    refine ⟨d.append (innermost opened) (.element e), (d.size, position) :: opened, ?_, ?_⟩
    · simp [appendToken, hvoid]
    · rw [append_eq_planted]
      exact hopened
  | voidEnd hvoid =>
    refine ⟨d, opened, ?_, h⟩
    simp [appendToken, hvoid]
  | closing hvoid hname =>
    obtain ⟨id, opened', rfl, hfound, hmirrors⟩ := h.exists_of_cons
    refine ⟨d, opened', ?_, hmirrors⟩
    simp [appendToken, hvoid, hfound, hname]

/-- An end tag that one stack refuses is refused by the other. -/
theorem appendToken_of_refuses {name : Text} {found : MarkupFault}
    (h : Mirrors d opened outer done) (hvoid : isVoidName name = false)
    (hrefuses : Token.Refuses position name outer found) :
    d.appendToken opened position (.closing name) = .error found := by
  cases hrefuses with
  | mismatched hname =>
    obtain ⟨id, opened', rfl, hfound, -⟩ := h.exists_of_cons
    simp [appendToken, hvoid, hfound, hname]
  | unexpectedEnd =>
    obtain ⟨rfl, -⟩ := h.eq_nil
    simp [appendToken, hvoid]

/-- At the end of the tokens both stacks come to the same. -/
theorem appendTokens_nil (h : Mirrors d opened outer done) (fault : Option MarkupFault) :
    appendTokens fault d opened [] = (Token.nest fault outer done []).map ofTrees := by
  cases fault with
  | some found => rfl
  | none =>
    cases outer with
    | nil =>
      obtain ⟨rfl, rfl⟩ := h.eq_nil
      rfl
    | cons o outer =>
      obtain ⟨id, opened', rfl, hfound, -⟩ := h.exists_of_cons
      simp only [appendTokens, hfound]
      rfl

/-- **Appending comes to the document of the trees that are built**, or to the same fault. -/
theorem appendTokens_eq (h : Mirrors d opened outer done) (fault : Option MarkupFault)
    (tokens : List (Nat × Token)) :
    appendTokens fault d opened tokens = (Token.nest fault outer done tokens).map ofTrees := by
  induction tokens generalizing d opened outer done with
  | nil => exact h.appendTokens_nil fault
  | cons x rest ih =>
    obtain ⟨position, token⟩ := x
    rw [appendTokens]
    rcases Token.builds_or_refuses position token outer done with ⟨outer', done', hbuilds⟩ |
      ⟨name, found, rfl, hvoid, hrefuses⟩
    · obtain ⟨d', opened', happend, hmirrors⟩ := h.exists_appendToken hbuilds
      rw [happend, Token.nest_of_builds hbuilds]
      exact ih hmirrors
    · rw [h.appendToken_of_refuses hvoid hrefuses, Token.nest_of_refuses hvoid hrefuses]
      rfl

end Mirrors

/-- **A document can be made token by token**: it is the one that the trees of the source make, and
what is wrong with a source is found all the same. -/
theorem parseByAppending_eq (source : Text) : parseByAppending source = parse source := by
  have hstart : Mirrors empty [] [] [] := @Mirrors.top []
  exact hstart.appendTokens_eq (Token.scan source).fault (Token.scan source).items

end Stencil.Document
