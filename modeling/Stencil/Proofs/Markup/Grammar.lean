/-
# What tokens write

Which trees a list of tokens writes can be said without open elements: `Derives tokens ts` is a
grammar.  A start tag and the end tag that closes it stand around tokens that write the children,
and every other token writes a tree of its own, or nothing (`alone?`).

Building trees on a stack comes to the same.  Tokens that write trees build them wherever they
stand, inside whatever is open (`nest_of_derives`), and from what is built of tokens it can be told
how they write it (`derives_of_nest`).  The grammar is what makes a part of a source independent of
what stands around it.

A source is read without a fault if it can be taken apart into pieces whose tokens write trees, and
these are the trees that it is read as (`Tree.parse_eq_ok_iff`).  For documents this is the language
that is accepted (`Document.parse_eq_ok_iff_derives`): whatever is wrong with a source is wrong with
one of its pieces or with the order of its tags, and a stack of open elements finds no more and no
less than that.
-/
import Stencil.Proofs.Document.Edits
import Stencil.Proofs.Markup.Building
import Stencil.Proofs.Markup.Reads

namespace Stencil.Token

/-! ## 1. The grammar -/

/-- The trees that a token writes alone: one or none.  The tags of an element that has both write
nothing alone. -/
def alone? : Token → Option (List Tree)
  | text t => some [.leaf (.text t)]
  | doctype t => some [.leaf (.doctype t)]
  | dropped => some []
  | empty e => some [.leaf (.element e)]
  | opening e => if e.isVoid then some [.leaf (.element e)] else none
  | closing name => if isVoidName name then some [] else none

/-- `Derives tokens ts`: the tokens write the trees. -/
inductive Derives : List Token → List Tree → Prop
  | nil : Derives [] []
  | alone {token : Token} {rest : List Token} {us ts : List Tree} (halone : token.alone? = some us)
      (hrest : Derives rest ts) : Derives (token :: rest) (us ++ ts)
  | element {e : Element} {name : Text} {inside rest : List Token} {children ts : List Tree}
      (hvoid : e.isVoid = false) (hname : Text.sameFold e.name name = true)
      (hinside : Derives inside children) (hrest : Derives rest ts) :
    Derives (.opening e :: (inside ++ .closing name :: rest)) (.node (.element e) children :: ts)

namespace Derives

variable {tokens tokens' : List Token} {ss ts : List Tree}

/-- Tokens that stand one behind the other write trees that do. -/
theorem append (h : Derives tokens ss) (h' : Derives tokens' ts) :
    Derives (tokens ++ tokens') (ss ++ ts) := by
  induction h with
  | nil => exact h'
  | alone halone _ ih =>
    rw [List.cons_append, List.append_assoc]
    exact .alone halone ih
  | element hvoid hname hinside _ _ ih =>
    rw [List.cons_append, List.append_assoc, List.cons_append, List.cons_append]
    exact .element hvoid hname hinside ih

/-- One token that writes its trees alone. -/
theorem singleton {token : Token} (h : token.alone? = some ts) : Derives [token] ts := by
  have hderives := Derives.alone h .nil
  rwa [List.append_nil] at hderives

/-- **An end tag is that of a void element, or bears the name of a start tag.** -/
theorem of_closing_mem (h : Derives tokens ts) {name : Text} (hmem : .closing name ∈ tokens) :
    isVoidName name = true ∨ ∃ e, .opening e ∈ tokens ∧ Text.sameFold e.name name = true := by
  induction h with
  | nil => exact absurd hmem List.not_mem_nil
  | alone halone _ ih =>
    rcases List.mem_cons.mp hmem with rfl | hmem
    · rw [alone?] at halone
      split at halone
      · next hvoid => exact Or.inl hvoid
      · exact absurd halone nofun
    · exact (ih hmem).imp_right fun ⟨e, he, hname⟩ => ⟨e, List.mem_cons_of_mem _ he, hname⟩
  | @element e name' inside rest _ _ _ hname _ _ ihinside ih =>
    have hwhole : ∀ token, token ∈ inside ∨ token ∈ rest →
        token ∈ .opening e :: (inside ++ .closing name' :: rest) := by
      intro token htoken
      simp only [List.mem_cons, List.mem_append]
      rcases htoken with htoken | htoken <;> simp [htoken]
    simp only [List.mem_cons, List.mem_append, reduceCtorEq, false_or, closing.injEq] at hmem
    rcases hmem with hmem | rfl | hmem
    · exact (ihinside hmem).imp_right fun ⟨e', he', h⟩ => ⟨e', hwhole _ (Or.inl he'), h⟩
    · exact Or.inr ⟨e, List.mem_cons_self, hname⟩
    · exact (ih hmem).imp_right fun ⟨e', he', h⟩ => ⟨e', hwhole _ (Or.inr he'), h⟩

end Derives

/-- Names that are the same in any case are void together. -/
theorem isVoidName_of_sameFold {m n : Text} (h : Text.sameFold m n = true) :
    isVoidName n = isVoidName m := by
  have hfold : Text.fold m = Text.fold n := beq_iff_eq.mp h
  simp only [isVoidName, Text.sameFold, hfold]

/-- Names that are the same in any case are raw together. -/
theorem isRawName_of_sameFold {m n : Text} (h : Text.sameFold m n = true) :
    isRawName n = isRawName m := by
  have hfold : Text.fold m = Text.fold n := beq_iff_eq.mp h
  simp only [isRawName, Text.sameFold, hfold]

/-! ## 2. What is written is built -/

section Building

variable {fault : Option MarkupFault} {opened : List OpenElement} {done us : List Tree} {p : Nat}
  {token : Token}

/-- A token that writes its trees alone builds them inside what is open. -/
theorem builds_of_alone (h : token.alone? = some us) :
    token.Builds p opened done opened (us.reverse ++ done) := by
  cases token with
  | text t =>
    obtain rfl := Option.some.inj h
    exact .text
  | doctype t =>
    obtain rfl := Option.some.inj h
    exact .doctype
  | dropped =>
    obtain rfl := Option.some.inj h
    exact .dropped
  | empty e =>
    obtain rfl := Option.some.inj h
    exact .empty
  | opening e =>
    rw [alone?] at h
    split at h
    · next hvoid =>
      obtain rfl := Option.some.inj h
      exact .bare hvoid
    · exact absurd h nofun
  | closing name =>
    rw [alone?] at h
    split at h
    · next hvoid =>
      obtain rfl := Option.some.inj h
      exact .voidEnd hvoid
    · exact absurd h nofun

/-- The first of some tokens, with the place where it stands. -/
theorem exists_of_map_snd {items : List (Nat × Token)} {rest : List Token}
    (h : items.map Prod.snd = token :: rest) :
    ∃ p items', items = (p, token) :: items' ∧ items'.map Prod.snd = rest := by
  obtain ⟨⟨p, token'⟩, items', rfl, rfl, hrest⟩ := List.map_eq_cons_iff.mp h
  exact ⟨p, items', rfl, hrest⟩

/-- **Tokens build the trees that they write**, wherever they stand. -/
theorem nest_of_derives {tokens : List Token} {ts : List Tree} (h : Derives tokens ts)
    {items : List (Nat × Token)} (hitems : items.map Prod.snd = tokens)
    (more : List (Nat × Token)) :
    nest fault opened done (items ++ more) = nest fault opened (ts.reverse ++ done) more := by
  induction h generalizing items opened done more with
  | nil =>
    obtain rfl := List.map_eq_nil_iff.mp hitems
    rfl
  | alone halone _ ih =>
    obtain ⟨p, behind, rfl, hbehind⟩ := exists_of_map_snd hitems
    rw [List.cons_append, nest_of_builds (builds_of_alone halone), ih hbehind,
      List.reverse_append, List.append_assoc]
  | element hvoid hname _ _ ihinside ih =>
    obtain ⟨p, items', rfl, hitems'⟩ := exists_of_map_snd hitems
    obtain ⟨inside, items'', rfl, hinside, hitems''⟩ := List.map_eq_append_iff.mp hitems'
    obtain ⟨q, behind, rfl, hbehind⟩ := exists_of_map_snd hitems''
    have hvoidEnd := (isVoidName_of_sameFold hname).trans hvoid
    rw [List.cons_append, nest_of_builds (.opening hvoid), List.append_assoc, ihinside hinside,
      List.cons_append, nest_of_builds (.closing hvoidEnd hname), ih hbehind, List.append_nil,
      List.reverse_reverse, List.reverse_cons, List.append_assoc, List.singleton_append]

end Building

/-! ## 3. What is built is written -/

/-- What is built from a state on: behind finished trees, what the tokens write; inside an open
element, what the tokens write up to the end tag that closes it, and then what is built outside. -/
def Completes (items : List (Nat × Token)) (ts : List Tree) : List OpenElement → List Tree → Prop
  | [], done => ∃ us, Derives (items.map Prod.snd) us ∧ ts = done.reverse ++ us
  | innermost :: outer, done => ∃ inside p name rest children,
      items = inside ++ (p, .closing name) :: rest ∧ Derives (inside.map Prod.snd) children ∧
        Text.sameFold innermost.element.name name = true ∧
        nest none outer
          (.node (.element innermost.element) (done.reverse ++ children) :: innermost.before) rest =
            .ok ts

/-- A token that writes its trees alone goes in front of what is completed. -/
theorem Completes.alone {items : List (Nat × Token)} {us ts : List Tree}
    {opened : List OpenElement} {done : List Tree} {p : Nat} {token : Token}
    (halone : token.alone? = some us) (h : Completes items ts opened (us.reverse ++ done)) :
    Completes ((p, token) :: items) ts opened done := by
  cases opened with
  | nil =>
    obtain ⟨us', hderives, rfl⟩ := h
    refine ⟨us ++ us', .alone halone hderives, ?_⟩
    rw [List.reverse_append, List.reverse_reverse, List.append_assoc]
  | cons innermost outer =>
    obtain ⟨inside, q, name, rest, children, rfl, hderives, hname, hrest⟩ := h
    refine ⟨(p, token) :: inside, q, name, rest, us ++ children, rfl, .alone halone hderives, hname,
      ?_⟩
    rwa [List.reverse_append, List.reverse_reverse, List.append_assoc] at hrest

/-- An element with what stands in it goes in front of what is completed. -/
theorem Completes.element {inside rest : List (Nat × Token)} {children ts : List Tree}
    {opened : List OpenElement} {done : List Tree} {p q : Nat} {e : Element} {name : Text}
    (h : Completes rest ts opened (.node (.element e) children :: done)) (hvoid : e.isVoid = false)
    (hname : Text.sameFold e.name name = true) (hinside : Derives (inside.map Prod.snd) children) :
    Completes ((p, .opening e) :: (inside ++ (q, .closing name) :: rest)) ts opened done := by
  have hderives : ∀ {behind : List (Nat × Token)} {us : List Tree},
      Derives (behind.map Prod.snd) us →
        Derives (((p, .opening e) :: (inside ++ (q, .closing name) :: behind)).map Prod.snd)
          (.node (.element e) children :: us) := by
    intro behind us hbehind
    rw [List.map_cons, List.map_append, List.map_cons]
    exact .element hvoid hname hinside hbehind
  cases opened with
  | nil =>
    obtain ⟨us, hrest, rfl⟩ := h
    exact ⟨_, hderives hrest, by rw [List.reverse_cons, List.append_assoc, List.singleton_append]⟩
  | cons innermost outer =>
    obtain ⟨inside', q', name', rest', children', rfl, hinside', hname', hrest'⟩ := h
    refine ⟨(p, .opening e) :: (inside ++ (q, .closing name) :: inside'), q', name', rest', _, ?_,
      hderives hinside', hname', ?_⟩
    · rw [List.cons_append, List.append_assoc, List.cons_append]
    · rwa [List.reverse_cons, List.append_assoc, List.singleton_append] at hrest'

/-- **How tokens write what is built of them.**  The tokens are gone through from the front; behind
a start tag those up to its end tag are taken off first. -/
theorem completes_of_nest {items : List (Nat × Token)} {opened : List OpenElement}
    {done ts : List Tree} (h : nest none opened done items = .ok ts) :
    Completes items ts opened done := by
  match items with
  | [] =>
    obtain ⟨-, rfl, rfl⟩ := nest_nil_eq_ok.mp h
    exact ⟨[], .nil, (List.append_nil _).symm⟩
  | (p, token) :: rest =>
    obtain ⟨opened', done', hbuilds, hrest⟩ := exists_builds h
    cases hbuilds with
    | text => exact Completes.alone rfl (completes_of_nest hrest)
    | doctype => exact Completes.alone rfl (completes_of_nest hrest)
    | dropped => exact Completes.alone rfl (completes_of_nest hrest)
    | empty => exact Completes.alone rfl (completes_of_nest hrest)
    | bare hvoid => exact Completes.alone (if_pos hvoid) (completes_of_nest hrest)
    | voidEnd hvoid => exact Completes.alone (if_pos hvoid) (completes_of_nest hrest)
    | opening hvoid =>
      obtain ⟨inside, q, name, behind, children, heq, hinside, hname, hbehind⟩ :=
        completes_of_nest hrest
      have hshorter : behind.length < rest.length := by
        rw [heq, List.length_append, List.length_cons]
        omega
      rw [heq]
      exact (completes_of_nest hbehind).element hvoid hname hinside
    | closing hvoid hname =>
      exact ⟨[], p, _, rest, [], rfl, .nil, hname, by rwa [List.append_nil]⟩
termination_by items.length

/-- **Tokens write the trees that are built of them.** -/
theorem derives_of_nest {items : List (Nat × Token)} {ts : List Tree}
    (h : nest none [] [] items = .ok ts) : Derives (items.map Prod.snd) ts := by
  obtain ⟨us, hderives, rfl⟩ := completes_of_nest h
  exact hderives

end Stencil.Token

/-! ## 4. Sources -/

/-- Where no piece can be read, no trees are built, whatever is open. -/
theorem Stencil.Token.nest_of_breaks {p : Nat} {rest : Text} {items : List (Nat × Token)}
    {found : MarkupFault} (h : Breaks p rest items found) (opened : List OpenElement)
    (done : List Tree) : nest (some found) opened done items = .error found := by
  cases h with
  | cut => rfl
  | lexeme => rfl
  | raw _ _ hraw =>
    -- the start tag of the raw element is still built, and then the tokens end
    have hvoid := isVoidName_of_isRawName hraw
    rw [nest_of_builds (.opening hvoid)]
    rfl

namespace Stencil.Tree

/-- A source from which trees are built is read as pieces whose tokens build them. -/
theorem exists_reads_of_parse {source : Text} {ts : List Tree} (h : parse source = .ok ts) :
    ∃ ps, Reads source ps [] ∧ Token.nest none [] [] (Piece.tokensAt 0 ps) = .ok ts := by
  rw [parse] at h
  cases hscan : Token.scanFrom 0 source with
  | mk items fault =>
    have hscan' : Token.scan source = ⟨items, fault⟩ := hscan
    rw [hscan'] at h
    cases fault with
    | some fault => exact absurd (Token.fault_eq_none h) nofun
    | none =>
      obtain ⟨ps, hreads, rfl⟩ := exists_reads hscan
      exact ⟨ps, hreads, h⟩

theorem map_snd_tokensAt (p : Nat) (ps : List Piece) :
    (Piece.tokensAt p ps).map Prod.snd = ps.map Piece.token := by
  induction ps generalizing p with
  | nil => rfl
  | cons q ps ih => rw [Piece.tokensAt, List.map_cons, List.map_cons, ih]

/-- **What a source is read as**: the trees that the tokens of its pieces write. -/
theorem parse_eq_ok_iff {source : Text} {ts : List Tree} :
    parse source = .ok ts ↔
      ∃ ps, Reads source ps [] ∧ Token.Derives (ps.map Piece.token) ts := by
  constructor
  · intro h
    obtain ⟨ps, hreads, hnest⟩ := exists_reads_of_parse h
    have hderives := Token.derives_of_nest hnest
    rw [map_snd_tokensAt] at hderives
    exact ⟨ps, hreads, hderives⟩
  · rintro ⟨ps, hreads, hderives⟩
    have hscan : Token.scan source = ⟨Piece.tokensAt 0 ps, none⟩ := scan_of_reads hreads 0
    have hnest := @Token.nest_of_derives none [] [] _ _ hderives _ (map_snd_tokensAt 0 ps) []
    rw [List.append_nil, List.append_nil] at hnest
    rw [parse, hscan]
    dsimp only
    rw [hnest, Token.nest, List.reverse_reverse]

/-- The same by what is scanned, places included. -/
theorem parse_eq_ok_iff_scan {source : Text} {ts : List Tree} :
    parse source = .ok ts ↔
      ∃ items, Token.scan source = ⟨items, none⟩ ∧ Token.Derives (items.map Prod.snd) ts := by
  constructor
  · intro h
    obtain ⟨ps, hreads, hnest⟩ := exists_reads_of_parse h
    exact ⟨_, scan_of_reads hreads 0, Token.derives_of_nest hnest⟩
  · rintro ⟨items, hscan, hderives⟩
    obtain ⟨ps, hreads, rfl⟩ := exists_reads hscan
    rw [map_snd_tokensAt] at hderives
    exact parse_eq_ok_iff.mpr ⟨ps, hreads, hderives⟩

end Stencil.Tree

/-! ## 5. Documents -/

namespace Stencil

/-- A source is scanned to its end without a fault exactly if it can be taken apart into pieces; the
tokens are those of the pieces, each at its place. -/
theorem Token.scan_eq_iff_reads {source : Text} {items : List (Nat × Token)} :
    scan source = ⟨items, none⟩ ↔ ∃ ps, Reads source ps [] ∧ items = Piece.tokensAt 0 ps := by
  constructor
  · exact exists_reads
  · rintro ⟨ps, hreads, rfl⟩
    exact scan_of_reads hreads 0

/-- **The language of documents.**  A source is read as a document exactly if it is scanned to its
end without a fault, which is to say that it can be taken apart into pieces, and the tokens write
trees; the document is the one that numbers these trees, as appending a node for each token does
(`Document.parseByAppending_eq`). -/
theorem Document.parse_eq_ok_iff_derives (source : Text) :
    (∀ items, Token.scan source = ⟨items, none⟩ ↔
        ∃ ps, Reads source ps [] ∧ items = Piece.tokensAt 0 ps) ∧
      ∀ d, parse source = .ok d ↔
        ∃ items ts, Token.scan source = ⟨items, none⟩ ∧ Token.Derives (items.map Prod.snd) ts ∧
          d = ofTrees ts ∧ d.tree root = .node .fragment ts := by
  constructor
  · intro items
    exact Token.scan_eq_iff_reads
  · intro d
    constructor
    · intro h
      obtain ⟨ts, hts, rfl⟩ := exists_of_map_eq_ok h
      obtain ⟨items, hscan, hderives⟩ := Tree.parse_eq_ok_iff_scan.mp hts
      exact ⟨items, ts, hscan, hderives, rfl, tree_root_ofTrees ts⟩
    · rintro ⟨items, ts, hscan, hderives, rfl, -⟩
      rw [parse, Tree.parse_eq_ok_iff_scan.mpr ⟨items, hscan, hderives⟩]
      rfl

end Stencil
