/-
# Values that are handed on

The body of a component may hold a usage of the next one, with a slot for its attribute:
`<s><Next a="{a}"/></s>`.  On its way through a row of such components a value is decoded, made
inert, put into markup that is read, and decoded again, over and over.

One step is enough to see that nothing is lost.  What is made inert is decoded to what it was
(`Text.decode_inert`), so the usage in the filled body has the value of the usage that the body was
filled for (`value?_link`).  Hence the last component of the row sees the value of the first usage,
however long the row is (`HandsOn.renderSource`), and in what the row renders to the value has been
made inert once (`Relay.render_usage`).

A value is not the raw text of an attribute.  The raw text may hold references, or `&` that begin
none, so that it stands for itself; either way it is decoded at the first usage, and what is handed
on from there is the decoded value.
-/
import Stencil.Proofs.Component.Registration
import Stencil.Proofs.Component.Wrapper

namespace Stencil

open Stencil.Tree (leaf printAll EachAll)

/-! ## 1. Bodies -/

namespace Relay

/-- The slot for the value. -/
def slot : Text := ['{', 'a', '}']

/-- The usage of a component with the raw value of its attribute. -/
def link (key raw : Text) : Element :=
  { name := key, attributes := [⟨['a'], raw⟩], selfClosing := true }

/-- The usage with the slot as it is written: `<Key a="{a}"/>`. -/
def linkText (key : Text) : Text := '<' :: key ++ [' ', 'a', '=', '"'] ++ slot ++ ['"', '/', '>']

/-- The body that hands the value on to a component: `<s><Key a="{a}"/></s>`. -/
def linkBody (key : Text) : Text := wrapped ['s'] (linkText key)

/-- The body that shows the value: `<b>{a}</b>`. -/
def lastBody : Text := wrapped ['b'] slot

section Bodies

variable {resolve : Slot → Text} {values : Text → Text} {key v : Text} {c : Component}
  {usage : Element} {children : List Tree}

theorem read?_slot : Slot.read? ['a', '}'] = some (.value ['a'] false, []) := by decide

theorem pieces_slot : Body.pieces slot = [.slot (.value ['a'] false)] := by
  rw [slot, Body.pieces_of_some read?_slot, Body.pieces_nil]

theorem fill_slot : Body.fill resolve slot = resolve (.value ['a'] false) := by
  rw [Body.fill, pieces_slot]
  exact List.append_nil _

theorem escaped_slot : Body.Escaped slot := by
  intro s hs
  rw [Body.slots, pieces_slot] at hs
  exact ⟨['a'], List.mem_singleton.mp hs⟩

theorem usualName_s : Tag.UsualName ['s'] := ⟨by decide, List.all_eq_true.mp (by decide)⟩

theorem usualName_b : Tag.UsualName ['b'] := ⟨by decide, List.all_eq_true.mp (by decide)⟩

/-- A usage with a raw value that can stand in quotes is canonical. -/
theorem canonical_link (hkey : Tag.UsualName key) {raw : Text}
    (hraw : ¬ ('"' ∈ raw ∧ '\'' ∈ raw)) : (link key raw).Canonical := by
  have hchars : ∀ c ∈ ['a'], Tag.isAttributeChar c = true := List.all_eq_true.mp (by decide)
  have hdirective : ['a'] ∉ directiveNames := by decide
  refine ⟨hkey.alpha, hkey.chars, fun a ha => ?_, List.nodup_singleton _⟩
  obtain rfl := List.mem_singleton.mp ha
  exact ⟨List.cons_ne_nil _ _, hchars, hdirective, hraw⟩

theorem canonicalAll_link (hkey : Tag.UsualName key) {raw : Text}
    (hraw : ¬ ('"' ∈ raw ∧ '\'' ∈ raw)) : Tree.CanonicalAll [leaf (.element (link key raw))] := by
  refine ⟨⟨canonical_link hkey hraw, fun _ => rfl, ?_⟩, nofun, trivial⟩
  split
  · exact Or.inl rfl
  · trivial

/-- **What is handed on is what came**: the usage in a filled body has the value that was put into
it. -/
theorem value?_link (key v : Text) : (link key (Text.inert v)).value? ['a'] = some v :=
  congrArg some (Text.decode_inert v)

theorem linkText_eq (key : Text) :
    linkText key = printAll .verbatim [leaf (.element (link key slot))] := by
  simp [linkText, printAll, Tree.print, leaf, Element.printAround, Element.printOpening, link,
    Attribute.print, Attribute.quoteFor, slot]

theorem slot_eq : slot = printAll .verbatim [leaf (.text slot)] := rfl

theorem linkBody_eq (key : Text) : linkBody key =
    printAll .verbatim [.node (.element (.named ['s'])) [leaf (.element (link key slot))]] := by
  rw [Element.printAll_named (by decide), linkBody, linkText_eq]

theorem lastBody_eq :
    lastBody = printAll .verbatim [.node (.element (.named ['b'])) [leaf (.text slot)]] := by
  rw [Element.printAll_named (by decide), lastBody, ← slot_eq]

/-- **A body that hands on, filled for a usage**, is read as a usage of the next component with the
value made inert. -/
theorem parse_filled_link (hbody : c.body = linkBody key) (hkey : Tag.UsualName key)
    (hvalue : usage.value? ['a'] = some v) :
    Tree.parse (Siblings.filledBody usage children c) =
      .ok [.node (.element (.named ['s'])) [leaf (.element (link key (Text.inert v)))]] := by
  have hs : (Element.named ['s']).Canonical := Element.canonical_named usualName_s
  have hlink : (link key slot).Canonical := canonical_link hkey (by decide)
  have hescaped : (link key slot).Escaped := by
    refine ⟨nofun, nofun, fun a ha => ?_⟩
    obtain rfl := List.mem_singleton.mp ha
    exact escaped_slot
  have hall : Tree.AllBody [.node (.element (.named ['s'])) [leaf (.element (link key slot))]] := by
    refine ⟨⟨hs, ⟨nofun, nofun, nofun⟩, fun h => absurd h (by decide),
      fun h => absurd h (by decide), ⟨hlink, hescaped, fun _ => rfl, fun _ => Or.inl rfl, trivial⟩,
      nofun, trivial⟩, nofun, trivial⟩
  have hfilled := Tree.parse_fill (Siblings.slotText_value usage children) hall
  rw [Siblings.filledBody, hbody, linkBody_eq, hfilled]
  simp [Tree.filledAll, Tree.filled, leaf, Element.filled, Element.named, link, Attribute.filled,
    fill_slot, Siblings.slotText_value, hvalue]

/-- The last body, filled for a usage, is read as an element around the value made inert. -/
theorem parse_filled_last (hbody : c.body = lastBody) (hvalue : usage.value? ['a'] = some v) :
    Tree.parse (Siblings.filledBody usage children c) =
      .ok [.node (.element (.named ['b'])) (Tree.ofText (Text.inert v))] := by
  have hb : (Element.named ['b']).Canonical := Element.canonical_named usualName_b
  have hall : Tree.AllBody [.node (.element (.named ['b'])) [leaf (.text slot)]] := by
    refine ⟨⟨hb, ⟨nofun, nofun, nofun⟩, fun h => absurd h (by decide),
      fun h => absurd h (by decide), ⟨by decide, by decide, escaped_slot, rfl⟩,
      nofun, trivial⟩, nofun, trivial⟩
  have hfilled := Tree.parse_fill (Siblings.slotText_value usage children) hall
  rw [Siblings.filledBody, hbody, lastBody_eq, hfilled]
  simp [Tree.filledAll, Tree.filled, leaf, Element.filled, Element.named, fill_slot,
    Siblings.slotText_value, hvalue]

end Bodies

/-! ## 2. Rows of components -/

/-- `HandsOn l last n key`: from the component of `key` the value is handed on `n` times, at last to
the component of `last`. -/
inductive HandsOn (l : Library) (last : Text) : Nat → Text → Prop
  | here : HandsOn l last 0 last
  | next {n : Nat} {key next : Text} {c : Component} (hlookup : l.lookup key = some c)
      (hbody : c.body = linkBody next) (hname : Tag.UsualName next)
      (hrest : HandsOn l last n next) : HandsOn l last (n + 1) key

section Rows

variable {l : Library} {last key : Text} {n : Nat}

/-- Every key of a row is that of a component, if the last is. -/
theorem HandsOn.exists_lookup (h : HandsOn l last n key) {end' : Component}
    (hlast : l.lookup last = some end') : ∃ c, l.lookup key = some c := by
  cases h with
  | here => exact ⟨end', hlast⟩
  | next hlookup => exact ⟨_, hlookup⟩

/-- **What is rendered at the end of a row** is the last component for a usage with the value that
the first usage has, and the row puts its elements around it. -/
theorem HandsOn.renderSource (hs : l.lookup ['s'] = none) {end' : Component}
    (hlast : l.lookup last = some end') (h : HandsOn l last n key) :
    ∀ {usage : Element} {children : List Tree} {c : Component} {v : Text}, usage.name = key →
      l.lookup key = some c → usage.value? ['a'] = some v →
      ∃ innermost inside, innermost.name = last ∧ innermost.value? ['a'] = some v ∧
        ∀ limit levels, Siblings.renderSource l limit (levels + n)
          (Siblings.filledBody usage children c) =
            (Siblings.renderSource l limit levels
              (Siblings.filledBody innermost inside end')).map (Tree.nested ['s'] n) := by
  induction h with
  | here =>
    intro usage children c v hname hlookup hvalue
    obtain rfl := Option.some.inj (hlookup.symm.trans hlast)
    refine ⟨usage, children, hname, hvalue, fun limit levels => ?_⟩
    cases Siblings.renderSource l limit levels (Siblings.filledBody usage children c) <;> rfl
  | @next n key next c' hlookup' hbody hnext hrest ih =>
    intro usage children c v hname hlookup hvalue
    obtain rfl := Option.some.inj (hlookup.symm.trans hlookup')
    obtain ⟨d, hd⟩ := hrest.exists_lookup hlast
    obtain ⟨innermost, inside, hinnermost, hseen, hrender⟩ :=
      @ih (link next (Text.inert v)) [] d v rfl hd (value?_link next v)
    refine ⟨innermost, inside, hinnermost, hseen, fun limit levels => ?_⟩
    have hinside : Siblings.renderSource l limit (levels + n + 1)
        (Siblings.filledBody usage children c) =
          (Siblings.renderSource l limit (levels + n)
            (Siblings.filledBody (link next (Text.inert v)) [] d)).map (Tree.nested ['s'] 1) :=
      Siblings.renderSource_inside (parse_filled_link hbody hnext hvalue) rfl hs rfl hd
        (levels + n + 1)
    rw [← Nat.add_assoc, hinside, hrender]
    cases Siblings.renderSource l limit levels (Siblings.filledBody innermost inside end') <;> rfl

end Rows

end Relay

/-! ## 3. Declared rows -/

/-- The names of a row of components, the last one apart.  Their keys are different and can be
used. -/
structure Relay where
  outer : List Text
  last : Text
  nodup_keys : ((outer ++ [last]).map ComponentName.key).Nodup
  usable : ∀ name ∈ outer ++ [last], ComponentName.Usable (ComponentName.key name)

namespace Relay

/-- The key of the first name. -/
def firstKey (outer : List Text) (last : Text) : Text := ComponentName.key (outer.head?.getD last)

/-- The declarations of a row as they are written, each a source of its own. -/
def sources : List Text → Text → List Text
  | [], last => [declaration ['b'] last slot]
  | name :: rest, last =>
    declaration ['s'] name (linkText (firstKey rest last)) :: sources rest last

/-- What is declared with them. -/
def declared : List Text → Text → List (Text × Tree)
  | [], last => [(last, .declaring ['b'] last (.text slot))]
  | name :: rest, last =>
    (name, .declaring ['s'] name (.element (link (firstKey rest last) slot))) :: declared rest last

section Declared

variable {outer : List Text} {last : Text} {l : Library}
  (husable : ∀ name ∈ outer ++ [last], ComponentName.Usable (ComponentName.key name))

theorem map_fst_declared (outer : List Text) (last : Text) :
    (declared outer last).map Prod.fst = outer ++ [last] := by
  induction outer with
  | nil => rfl
  | cons name rest ih => rw [declared, List.map_cons, ih, List.cons_append]

theorem mem_declared_last (outer : List Text) (last : Text) :
    (last, Tree.declaring ['b'] last (.text slot)) ∈ declared outer last := by
  induction outer with
  | nil => exact List.mem_singleton_self _
  | cons name rest ih => exact List.mem_cons_of_mem _ ih

theorem firstKey_mem (outer : List Text) (last : Text) :
    ∃ name ∈ outer ++ [last], firstKey outer last = ComponentName.key name := by
  cases outer with
  | nil => exact ⟨last, List.mem_singleton_self last, rfl⟩
  | cons name rest => exact ⟨name, List.mem_cons_self, rfl⟩

include husable

theorem usualName_firstKey : Tag.UsualName (firstKey outer last) := by
  obtain ⟨name, hmem, hkey⟩ := firstKey_mem outer last
  rw [hkey]
  exact Tag.usualName_key (husable name hmem).alpha

/-- **The sources of a row declare its components.** -/
theorem declarationsOf_sources :
    (sources outer last).flatMap Library.declarationsOf = declared outer last := by
  induction outer with
  | nil =>
    have hkey := (husable last (List.mem_singleton_self last)).ne_nil
    rw [sources, List.flatMap_singleton, slot_eq]
    exact Library.declarationsOf_declaration usualName_b (by decide) (by decide) hkey
      (Tree.canonicalAll_text nofun (by decide)) rfl
  | cons name rest ih =>
    have hrest : ∀ name ∈ rest ++ [last], ComponentName.Usable (ComponentName.key name) :=
      fun name hname => husable name (List.mem_cons_of_mem _ hname)
    have hkey := (husable name List.mem_cons_self).ne_nil
    have hquotes : ¬ ('"' ∈ slot ∧ '\'' ∈ slot) := by decide
    have hlink := canonicalAll_link (usualName_firstKey hrest) hquotes
    have hfirst : Library.declarationsOf (declaration ['s'] name (linkText (firstKey rest last))) =
        [(name, .declaring ['s'] name (.element (link (firstKey rest last) slot)))] := by
      rw [linkText_eq]
      exact Library.declarationsOf_declaration usualName_s (by decide) (by decide) hkey hlink rfl
    rw [sources, List.flatMap_cons, hfirst, ih hrest]
    rfl

/-- **A library that finds what is declared hands the value on** along the row. -/
theorem handsOn_of_declared
    (hl : ∀ x ∈ declared outer last,
      l.lookup (ComponentName.key x.1) = some (Component.ofDeclaration x)) :
    HandsOn l (ComponentName.key last) outer.length (firstKey outer last) := by
  induction outer with
  | nil => exact .here
  | cons name rest ih =>
    have hrest : ∀ name ∈ rest ++ [last], ComponentName.Usable (ComponentName.key name) :=
      fun name hname => husable name (List.mem_cons_of_mem _ hname)
    have hbody : (Component.ofDeclaration (name, Tree.declaring ['s'] name
        (.element (link (firstKey rest last) slot)))).body = linkBody (firstKey rest last) := by
      rw [Tree.declaring_eq, Component.body_declaring name (by decide), ← linkText_eq, linkBody]
    exact .next (hl _ List.mem_cons_self) hbody (usualName_firstKey hrest)
      (ih hrest fun x hx => hl x (List.mem_cons_of_mem _ hx))

end Declared

variable (w : Relay)

/-- After the calls the declarations of the row are found, each under its key. -/
def DeclaredBy (calls : List Text) : Prop :=
  ∀ x ∈ declared w.outer w.last,
    (Library.afterCalls calls).lookup (ComponentName.key x.1) = some (Component.ofDeclaration x)

/-- **A call for each declaration of the row** is enough. -/
theorem declaredBy_sources : w.DeclaredBy (sources w.outer w.last) := by
  intro x hx
  have hrecords := Library.records_afterCalls (sources w.outer w.last)
  rw [declarationsOf_sources w.usable] at hrecords
  refine hrecords.lookup_of_mem ?_ hx
  have hkeys : (declared w.outer w.last).map (fun x => ComponentName.key x.1) =
      (w.outer ++ [w.last]).map ComponentName.key := by
    rw [← map_fst_declared, List.map_map]
    rfl
  rw [hkeys]
  exact w.nodup_keys

/-! ## 4. Usages of a row -/

/-- The key of the outermost component. -/
def first : Text := firstKey w.outer w.last

/-- The template is a usage of the outermost component whose attribute has the raw value. -/
def Uses (raw template : Text) : Prop :=
  ∃ usage children, Tree.parse template = .ok [.node (.element usage) children] ∧
    usage.name = w.first ∧ usage.branch = none ∧ usage.attribute? ['a'] = some ⟨['a'], raw⟩

/-- The usage as it is written, the value in the quotes that it does not hold. -/
def usage (raw : Text) : Text := '<' :: w.first ++ Attribute.print ⟨['a'], raw⟩ ++ ['/', '>']

/-- Every value that does not hold both quotes can be written. -/
theorem uses_usage {raw : Text} (hraw : ¬ ('"' ∈ raw ∧ '\'' ∈ raw)) : w.Uses raw (w.usage raw) := by
  have hcanonical := canonicalAll_link (usualName_firstKey w.usable) hraw
  have hprint : w.usage raw = printAll .verbatim [leaf (.element (link w.first raw))] := by
    simp [usage, printAll, Tree.print, leaf, Element.printAround, Element.printOpening, link]
  refine ⟨link w.first raw, [], ?_, rfl, rfl, rfl⟩
  rw [hprint]
  exact Tree.parse_legible (Tree.shapedAll_of_canonical hcanonical)
    (Tree.legibleAll_of_canonical hcanonical)

section Rendering

variable {w} {calls : List Text} {raw template : Text}

/-- The last component of the row. -/
def shown (w : Relay) : Component :=
  .ofDeclaration (w.last, .declaring ['b'] w.last (.text slot))

/-- **The last component sees the decoded value**: what is rendered innermost, at whatever depth, is
its body for a usage with this value. -/
theorem exists_innermost (hcalls : w.DeclaredBy calls) (huses : w.Uses raw template) :
    ∃ innermost inside, innermost.name = ComponentName.key w.last ∧
      innermost.value? ['a'] = some (Text.decode raw) ∧
      ∀ limit levels,
        Siblings.renderSource (.afterCalls calls) limit (levels + w.outer.length + 1) template =
          (Siblings.renderSource (.afterCalls calls) limit levels
            (Siblings.filledBody innermost inside w.shown)).map
              (Tree.nested ['s'] w.outer.length) := by
  obtain ⟨usage, children, hparse, hname, hbranch, hraw⟩ := huses
  have hs := (Library.records_afterCalls calls).lookup_of_isLower (List.cons_ne_nil 's' [])
    (List.all_eq_true.mp (by decide))
  have hlast := hcalls _ (mem_declared_last w.outer w.last)
  have hrow := handsOn_of_declared w.usable hcalls
  obtain ⟨c, hc⟩ := hrow.exists_lookup hlast
  have hvalue : usage.plain.value? ['a'] = some (Text.decode raw) := by
    change (usage.attribute? ['a']).map Attribute.decoded = _
    rw [hraw]
    rfl
  obtain ⟨innermost, inside, hinnermost, hseen, hrender⟩ :=
    @HandsOn.renderSource _ _ _ _ hs _ hlast hrow usage.plain children c _ hname hc hvalue
  refine ⟨innermost, inside, hinnermost, hseen, fun limit levels => ?_⟩
  have husage := @Siblings.renderSource_usage _ limit _ [] _ _ _ hparse hbranch
    (hname ▸ hc : (Library.afterCalls calls).lookup usage.name = some c) trivial
    (levels + w.outer.length)
  rw [husage, hrender, shown]
  cases Siblings.renderSource (.afterCalls calls) limit levels
    (Siblings.filledBody innermost inside _) with
  | error fault => rfl
  | ok out => exact congrArg Except.ok (List.append_nil _)

/-- What the last component renders to for a usage with a value: the value made inert. -/
theorem renderSource_shown {usage : Element} {v : Text} (hvalue : usage.value? ['a'] = some v)
    (children : List Tree) (limit : UInt64) (levels : Nat) :
    Siblings.renderSource (.afterCalls calls) limit levels
      (Siblings.filledBody usage children w.shown) =
        .ok [.node (.element (.named ['b'])) (Tree.ofText (Text.inert v))] := by
  have hbody : w.shown.body = lastBody := by
    rw [shown, Tree.declaring_eq, Component.body_declaring w.last (by decide), ← slot_eq, lastBody]
  have hb := (Library.records_afterCalls calls).lookup_of_isLower (List.cons_ne_nil 'b' [])
    (List.all_eq_true.mp (by decide))
  have htext : EachAll (NodeKind.Normal (.afterCalls calls)) (Tree.ofText (Text.inert v)) := by
    unfold Tree.ofText
    split
    · trivial
    · exact ⟨⟨nofun, trivial⟩, trivial⟩
  have hnormal : EachAll (NodeKind.Normal (.afterCalls calls))
      [.node (.element (.named ['b'])) (Tree.ofText (Text.inert v))] := by
    refine ⟨⟨?_, htext⟩, trivial⟩
    rintro _ ⟨⟩
    exact Element.normal_plain (e := .named ['b']) hb
  exact Siblings.renderSource_of_normal (parse_filled_last hbody hvalue) hnormal levels

end Rendering

/-- **A value is decoded once and made inert once, however long the row is.**  Every value that does
not hold both quotes can be given to the outermost component.  A usage with the raw value renders to
the decoded value, made inert, in the element `b`, in as many elements `s` as components hand it on.
And what is rendered innermost, at whatever depth, is the last component for a usage that has the
decoded value. -/
theorem render_usage {calls : List Text} (hcalls : w.DeclaredBy calls) {settings : Settings}
    (hlayout : settings.compactWhitespace = false)
    (hdepth : w.outer.length + 1 ≤ settings.maxDepth.toNat) (raw : Text) :
    (¬ ('"' ∈ raw ∧ '\'' ∈ raw) → w.Uses raw (w.usage raw)) ∧
      ∀ template, w.Uses raw template →
        Engine.render ⟨.afterCalls calls, settings⟩ template =
          .ok ((List.replicate w.outer.length ['<', 's', '>']).flatten ++
            wrapped ['b'] (Text.inert (Text.decode raw)) ++
            (List.replicate w.outer.length ['<', '/', 's', '>']).flatten) ∧
        ∃ innermost inside, innermost.name = ComponentName.key w.last ∧
          innermost.value? ['a'] = some (Text.decode raw) ∧
          ∀ limit levels,
            Siblings.renderSource (.afterCalls calls) limit (levels + w.outer.length + 1) template =
              (Siblings.renderSource (.afterCalls calls) limit levels
                (Siblings.filledBody innermost inside w.shown)).map
                  (Tree.nested ['s'] w.outer.length) := by
  refine ⟨w.uses_usage, fun template huses => ?_⟩
  obtain ⟨innermost, inside, hname, hvalue, hrender⟩ := exists_innermost hcalls huses
  refine ⟨?_, innermost, inside, hname, hvalue, hrender⟩
  obtain ⟨levels, hlevels⟩ := Nat.exists_eq_add_of_le' hdepth
  have hprint : printAll .verbatim (Tree.ofText (Text.inert (Text.decode raw))) =
      Text.inert (Text.decode raw) := by
    unfold Tree.ofText
    split
    · next hempty =>
      rw [hempty]
      rfl
    · exact List.append_nil _
  rw [Engine.render_eq, hlevels, ← Nat.add_assoc, hrender,
    renderSource_shown hvalue inside settings.maxDepth levels, Settings.layout, hlayout]
  change Except.ok (printAll .verbatim (Tree.nested ['s'] w.outer.length _)) = _
  rw [Tree.printAll_nested (by decide), Element.printAll_named (by decide), hprint]
  rfl

/-- A component that hands its value on to one that shows it. -/
def relaySample : Relay where
  outer := [['o', 'n', 'e']]
  last := ['t', 'w', 'o']
  nodup_keys := by decide
  usable := by
    intro name hname
    rcases List.mem_pair.mp hname with rfl | rfl
    · exact ⟨by decide, by decide, by decide⟩
    · exact ⟨by decide, by decide, by decide⟩

/-- A reference, what looks like a slot, and a `&` that begins no reference, so that the first is
none either. -/
def hostileRaw : Text := "&lt;\x7ba\x7d&".toList

theorem render_usage_relaySample :
    relaySample.DeclaredBy (sources relaySample.outer relaySample.last) ∧
    relaySample.usage hostileRaw = "<One a=\"&lt;\x7ba\x7d&\"/>".toList ∧
    Engine.render ⟨.afterCalls (sources relaySample.outer relaySample.last), ⟨2, false⟩⟩
      (relaySample.usage hostileRaw) =
        .ok "<s><b>&amp;lt;\x7ba\x7d&amp;</b></s>".toList := by
  have hdeclared := relaySample.declaredBy_sources
  obtain ⟨huses, hrender⟩ :=
    @render_usage relaySample _ hdeclared ⟨2, false⟩ rfl (by decide) hostileRaw
  refine ⟨hdeclared, by decide, ?_⟩
  rw [(hrender _ (huses (by decide))).1]
  exact congrArg Except.ok (by decide)

end Relay

end Stencil
