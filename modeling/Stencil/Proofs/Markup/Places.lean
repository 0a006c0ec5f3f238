/-
# Places that reading comes to

What can be said of a place in a source is what reading finds there: the rest of the text, the token
that this begins with (`Token.Begins`), and the elements that are open (`Tree.Arrives`).

A place is given by its byte offset, and this is enough: there is one point of the source at an
offset, one way to read up to it, and one answer to what is open (`Tree.Arrives.unique`).  Reading
goes on from place to place, into an element behind its start tag and out of it behind its end tag
(`Tree.Arrives.inside`, `Tree.Arrives.closing`).
-/
import Stencil.Proofs.Markup.OpenElements

namespace Stencil

/-! ## 1. What a text begins with -/

/-- `token.Begins t behind`: the text `t` begins with a lexeme that means the token, and `behind` is
what follows it. -/
def Token.Begins (token : Token) (t behind : Text) : Prop :=
  ∃ l, Lexeme.cut t = .ok (l, behind) ∧ l.Means token

namespace Token

variable {rest behind : Text} {token : Token}

/-- Markup is no empty text. -/
theorem Begins.ne_nil (h : token.Begins rest behind) (htoken : ∀ t, token ≠ .text t) :
    rest ≠ [] := by
  rintro rfl
  obtain ⟨l, hcut, hmeans⟩ := h
  obtain ⟨rfl, -⟩ := Prod.mk.inj (Except.ok.inj hcut)
  exact htoken [] (Except.ok.inj hmeans).symm

/-- Only text does not begin with markup. -/
theorem Begins.beginsMarkup (h : token.Begins rest behind) (htoken : ∀ t, token ≠ .text t) :
    Lexeme.beginsMarkup rest = true := by
  obtain ⟨l, hcut, hmeans⟩ := h
  rcases Lexeme.isMarkup_or_of_cut hcut with ⟨hbegins, -⟩ | ⟨-, rfl, -⟩
  · exact hbegins
  · exact absurd (Except.ok.inj hmeans).symm (htoken _)

/-- What a text begins with is one token. -/
theorem Begins.unique {token' : Token} {behind' : Text} (h : token.Begins rest behind)
    (h' : token'.Begins rest behind') : token = token' := by
  obtain ⟨l, hcut, hmeans⟩ := h
  obtain ⟨l', hcut', hmeans'⟩ := h'
  obtain ⟨rfl, -⟩ := Prod.mk.inj (Except.ok.inj (hcut.symm.trans hcut'))
  exact Except.ok.inj (hmeans.symm.trans hmeans')

theorem begins_of_reads {source : Text} {q : Piece} {qs : List Piece}
    (h : Reads source (q :: qs) rest) :
    ∃ behind, q.token.Begins source behind := by
  cases h with
  | piece _ hcut _ hmeans _ => exact ⟨_, _, hcut, hmeans⟩
  | raw _ hcut _ hmeans _ _ _ => exact ⟨_, _, hcut, hmeans⟩

end Token

/-! ## 2. What is open -/

namespace Tree

open Token (Opens)

/-- `Arrives source p es rest`: reading the source comes to `rest`, which stands at `p`, and the
elements `es` are open there, innermost first. -/
def Arrives (source : Text) (p : Nat) (es : List Element) (rest : Text) : Prop :=
  ∃ ps, Reads source ps rest ∧ Opens (ps.map Piece.token) es ∧
    p = Text.byteLength (Piece.text ps)

variable {source rest behind name : Text} {p : Nat} {es : List Element} {e : Element}
  {ps : List Piece}

/-- A place is between two characters. -/
theorem Arrives.exists_before (h : Arrives source p es rest) :
    ∃ before, source = before ++ rest ∧ p = Text.byteLength before := by
  obtain ⟨ps, hreads, -, hp⟩ := h
  exact ⟨Piece.text ps, hreads.text_append.symm, hp⟩

theorem Arrives.boundary (h : Arrives source p es rest) :
    ∃ before rest, source = before ++ rest ∧ p = Text.byteLength before := by
  obtain ⟨before, hbefore⟩ := h.exists_before
  exact ⟨before, rest, hbefore⟩

/-- **A place is at one point of the source, and there is one answer to what is open there.** -/
theorem Arrives.unique {es' : List Element} {rest' : Text} (h : Arrives source p es rest)
    (h' : Arrives source p es' rest') : es = es' ∧ rest = rest' := by
  obtain ⟨ps, hreads, hopens, hp⟩ := h
  obtain ⟨qs, hreads', hopens', hp'⟩ := h'
  obtain ⟨-, rfl⟩ := Text.append_inj_of_byteLength
    (hreads.text_append.trans hreads'.text_append.symm) (hp.symm.trans hp')
  obtain rfl := hreads.unique hreads'
  exact ⟨hopens.unique hopens', rfl⟩

/-- Behind the start tag of an element that is not raw the element is open. -/
theorem Arrives.inside (h : Arrives source p es rest)
    (hbegins : (Token.opening e).Begins rest behind) (hvoid : e.isVoid = false)
    (hraw : isRawName e.name = false) {ts : List Tree} {last : Text}
    (hreads : Reads behind ps last) (hinside : Token.Derives (ps.map Piece.token) ts) :
    ∃ q, Arrives source q (e :: es) last := by
  have hne := hbegins.ne_nil nofun
  obtain ⟨front, hfront, hopens, -⟩ := h
  obtain ⟨l, hcut, hmeans⟩ := hbegins
  have hname := Lexeme.rawName?_of_opening hmeans
  rw [if_neg (by simp [hraw])] at hname
  refine ⟨_, _, hfront.append (.piece hne hcut hname hmeans hreads), ?_, rfl⟩
  rw [List.map_append, List.map_cons]
  exact .inside hopens hvoid hinside

/-- Behind an end tag with its name the innermost element is closed. -/
theorem Arrives.closing (h : Arrives source p (e :: es) rest)
    (hbegins : (Token.closing name).Begins rest behind) (hname : Text.sameFold e.name name = true) :
    ∃ q, Arrives source q es behind := by
  have hne := hbegins.ne_nil nofun
  obtain ⟨ps, hreads, hopens, -⟩ := h
  obtain ⟨l, hcut, hmeans⟩ := hbegins
  refine ⟨_, _, hreads.append (.piece hne hcut (Lexeme.rawName?_of_closing hmeans) hmeans .done),
    ?_, rfl⟩
  rw [List.map_append]
  exact hopens.closing hname

theorem Arrives.position_of_nil (h : Arrives source p es []) : p = Text.byteLength source := by
  obtain ⟨before, rfl, rfl⟩ := h.exists_before
  rw [List.append_nil]

theorem Arrives.position_lt (h : Arrives source p es rest) (hne : rest ≠ []) :
    p < Text.byteLength source := by
  obtain ⟨before, rfl, rfl⟩ := h.exists_before
  rw [Text.byteLength_append]
  exact Nat.lt_add_of_pos_right (Text.byteLength_pos hne)

end Tree

end Stencil
