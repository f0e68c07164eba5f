import ElementCompiler.Proofs.Markup.ShownAttributes
import ElementCompiler.Proofs.Module.LoweredNodes
import ElementCompiler.Proofs.Module.Props
import ElementCompiler.Proofs.Module.ViewTags

set_option autoImplicit false

/-!
The attributes of the view read back. The code of every binding is encoded once, whichever rule shows
it, so the attributes of bindings can be read; the values of literal attributes are written as they
are, and are read back when they have no double quote and no mark for one.
-/

namespace ElementCompiler.Module

open Attempt Markup Text

/-- The code of a binding with its refs and its members in place. -/
def shownCode (fields : List (Text × Text)) (m : Members) (key : Text) (code : Json) : Attempt Json :=
  refCode fields key code >>=
    Snippet.onGiven (Snippet.relocateMembers m.outputVars instanceLead (.before ""))

/-- The attributes that a binding of the node is shown as, before their double quotes are encoded. -/
structure ShowsBinding (fields : List (Text × Text)) (m : Members) (n : Node) (place : Place)
    (b : Text × Option Binding) (shown : List Attribute) : Prop where
  single : shown.length ≤ 1
  shownAs : ∀ a ∈ shown, ∃ x code, b.2 = some x ∧ shownCode fields m b.1 x.code = .ok (.str code) ∧
    ShownAs n place b.1 x code a

/-- A literal attribute whose value is one line without double quotes and marks for them. -/
structure IsPlainLiteral (a : Attribute) : Prop where
  quote : a.IsEncoded
  line : ∀ v, a.value = some v → CodePoint.char '\n' ∉ v
  mark : ∀ v, a.value = some v → occursIn quoteMark v = false

section Lowered

variable {fields : List (Text × Text)} {m : Members} {n n' : Node} {place : Place} {e : Emitted}
  {key : Text} {b b' : Option Binding}

/-- The code of a lowered binding is encoded. -/
theorem loweredBinding_shown (h : loweredBinding fields m key b = .ok b') : ∃ x code, b = some x ∧
    shownCode fields m key x.code = .ok (.str code) ∧
    b' = some { x with code := .str (encodeQuotes code) } := by
  obtain ⟨x, code, code', rfl, hfirst, hsecond, rfl⟩ := loweredBinding_eq_ok h
  obtain ⟨j, hj, hsecond⟩ := bind_eq_ok.mp hsecond
  obtain ⟨s, hs, hsecond⟩ := bind_eq_ok.mp hsecond
  obtain rfl := textOr_eq_ok hs
  obtain rfl := Except.ok.inj hsecond
  exact ⟨x, s, rfl, bind_eq_ok.mpr ⟨code, hfirst, hj⟩, rfl⟩

theorem NodeLowered.exists_shownCode (h : NodeLowered fields m n n') {x : Binding}
    (hb : (key, some x) ∈ n.bindings) :
    ∃ shown, shownCode fields m key x.code = .ok (.str shown) ∧
      (key, some { x with code := .str (encodeQuotes shown) }) ∈ n'.bindings := by
  obtain ⟨⟨key', b'⟩, hb', hkey, hlowered⟩ := exists_right h.bindings _ hb
  obtain ⟨y, shown, hy, hshown, hsame⟩ := loweredBinding_shown hlowered
  obtain rfl := Option.some.inj hy
  obtain rfl : key' = key := hkey
  exact ⟨shown, hshown, hsame ▸ hb'⟩

theorem NodeLowered.hasEncodedCode (h : NodeLowered fields m n n') : HasEncodedCode n' := by
  intro b' hb'
  obtain ⟨b, _, _, hlowered⟩ := exists_left h.bindings b' hb'
  obtain ⟨x, code, _, _, hx'⟩ := loweredBinding_shown hlowered
  exact ⟨_, _, hx', rfl, quote_notMem_encodeQuotes code⟩

theorem NodeLowered.hasAttributeNames (h : NodeLowered fields m n n') (hn : HasAttributeNames n) :
    HasAttributeNames n' where
  tag := by rw [h.name]; exact hn.tag
  properties := by rw [h.properties]; exact hn.properties
  bindings b' hb' := by
    obtain ⟨b, hb, hkey, _⟩ := exists_left h.bindings b' hb'
    rw [hkey]
    exact hn.bindings b hb

theorem propertyAttributes_lowered (h : NodeLowered fields m n n') : propertyAttributes n' = propertyAttributes n := by
  rw [propertyAttributes, propertyAttributes, h.properties]

theorem exists_map_encoded {P : Attribute → Prop} {as : List Attribute}
    (h : ∀ a ∈ as, ∃ s, P s ∧ a = s.encoded) :
    ∃ shown : List Attribute, as = shown.map Attribute.encoded ∧ ∀ s ∈ shown, P s := by
  induction as with
  | nil => exact ⟨[], rfl, by rintro _ ⟨⟩⟩
  | cons a as ih =>
    rw [List.forall_mem_cons] at h
    obtain ⟨⟨s, hs, rfl⟩, hrest⟩ := h
    obtain ⟨shown, rfl, hshown⟩ := ih hrest
    exact ⟨s :: shown, rfl, List.forall_mem_cons.mpr ⟨hs, hshown⟩⟩

/-- What a lowered binding emits is the encoding of what the binding is shown as. -/
theorem showsBinding_of_emits {bound bound' : Text × Option Binding} {x : Binding} (hname : n'.name = n.name)
    (h : Visitor.EntryVisited (loweredBinding fields m) bound bound') (hx : bound'.2 = some x)
    (he : EmitsBy n' place bound'.1 x e) :
    ∃ shown, ShowsBinding fields m n place bound shown ∧ e.attributes = shown.map Attribute.encoded := by
  obtain ⟨hkey, hlowered⟩ := h
  obtain ⟨y, code, hy, hcode, hx'⟩ := loweredBinding_shown hlowered
  obtain rfl := Option.some.inj (hx.symm.trans hx')
  rw [hkey] at he
  obtain ⟨shown, hshown, hall⟩ := exists_map_encoded fun a ha => (he.attributes a ha).exists_shownAs hname
  have hlength := he.single
  rw [hshown, List.length_map] at hlength
  exact ⟨shown, ⟨hlength, fun a ha => ⟨y, code, hy, hcode, hall a ha⟩⟩, hshown⟩

/-- The bindings of a lowered node are emitted one by one. -/
theorem NodeLowered.exists_shown (h : NodeLowered fields m n n') (he : emitAll n' place = .ok e) :
    ∃ shown, List.Forall₂ (ShowsBinding fields m n place) n.bindings shown ∧
      e.attributes = shown.flatten.map Attribute.encoded := by
  obtain ⟨es, hes, hattributes, _⟩ := emitAll_emits he
  suffices hall : ∀ {bs bs' es}, List.Forall₂ (Visitor.EntryVisited (loweredBinding fields m)) bs bs' →
      List.Forall₂ (fun b e => ∃ x, b.2 = some x ∧ EmitsBy n' place b.1 x e) bs' es →
      ∃ shown, List.Forall₂ (ShowsBinding fields m n place) bs shown ∧
        es.flatMap Emitted.attributes = shown.flatten.map Attribute.encoded by
    rw [hattributes]
    exact hall h.bindings hes
  intro bs bs' es hbs hes
  induction hbs generalizing es with
  | nil =>
    obtain rfl := List.forall₂_nil_left_iff.mp hes
    exact ⟨[], .nil, rfl⟩
  | cons hb _ ih =>
    obtain ⟨e, rest, ⟨x, hx, hemits⟩, hrest, rfl⟩ := List.forall₂_cons_left_iff.mp hes
    obtain ⟨first, hfirst, hencoded⟩ := showsBinding_of_emits h.name hb hx hemits
    obtain ⟨others, hothers, hsame⟩ := ih hrest
    refine ⟨first :: others, .cons hfirst hothers, ?_⟩
    rw [List.flatMap_cons, hencoded, hsame, List.flatten_cons, List.map_append]

end Lowered

section View

variable {o : CompileOptions} {c c' : Component} {a : Assembled} {m : Members} {block : Block}
  {fields : List (Text × Text)} {n n' : Node} {p : Piece}

/-- What HTML reads of a tag that a node opens, where the tag stands in the view. -/
structure ReadsBack (fields : List (Text × Text)) (m : Members) (n n' : Node) (p : Piece) (rest : Text) :
    Prop where
  /-- The tag is read as it was emitted, unless a literal brings a double quote into it. -/
  read : readTag (p.laidOut.text ++ rest) =
      some ⟨p.tag, (p.attributes.map Attribute.decoded).map Attribute.laidOut, rest⟩ ↔
    ∀ a ∈ literalAttributes n', a.IsEncoded
  read_plain : (∀ a ∈ propertyAttributes n, a.IsEncoded) → CodePoint.char '"' ∉ n.scope.forName.display →
    readTag (p.laidOut.text ++ rest) =
      some ⟨p.tag, (p.attributes.map Attribute.decoded).map Attribute.laidOut, rest⟩
  /-- An element is read as its properties and then what its bindings are shown as. -/
  element : blockRule n' = .ok .element → ∃ place shown,
    List.Forall₂ (ShowsBinding fields m n place) n.bindings shown ∧
      p.attributes = propertyAttributes n ++ shown.flatten.map Attribute.encoded ∧
      ((∀ a ∈ propertyAttributes n, IsPlainLiteral a) → readTag (p.laidOut.text ++ rest) =
        some ⟨p.tag, propertyAttributes n ++ (shown.flatten.map Attribute.decoded).map Attribute.laidOut, rest⟩)

/-- Exactly an attribute without a mark in its value is read as it is written. -/
theorem decoded_eq_self_iff {a : Attribute} :
    a.decoded = a ↔ ∀ v, a.value = some v → occursIn quoteMark v = false := by
  obtain ⟨name, _ | value⟩ := a
  · exact iff_of_true rfl (by rintro _ ⟨⟩)
  · refine Iff.trans ?_ (decodeQuotes_eq_self_iff.trans ⟨fun h => by rintro _ ⟨⟩; exact h, fun h => h value rfl⟩)
    simp [Attribute.decoded]

theorem IsPlainLiteral.map_eq {as : List Attribute} (h : ∀ a ∈ as, IsPlainLiteral a) :
    (as.map Attribute.decoded).map Attribute.laidOut = as := by
  rw [List.map_map]
  refine (List.map_congr_left fun a ha => ?_).trans (List.map_id as)
  rw [Function.comp_apply, decoded_eq_self_iff.mpr (h a ha).mark, Attribute.laidOut_eq_self (h a ha).line]
  rfl

/-- The attributes of an element: its properties, then those of its bindings. -/
theorem NodeLowered.exists_attributes (h : NodeLowered fields m n n') (hopens : OpensTag n' p)
    (hrule : blockRule n' = .ok .element) : ∃ place shown,
      List.Forall₂ (ShowsBinding fields m n place) n.bindings shown ∧
        p.attributes = propertyAttributes n ++ shown.flatten.map Attribute.encoded := by
  have hother : ∀ {rule : BlockRule}, blockRule n' = .ok rule → rule = .element := fun h =>
    Except.ok.inj (h.symm.trans hrule)
  cases hopens with
  | @element place emitted name _ _ _ hemitted | @void place emitted name _ _ _ hemitted =>
    obtain ⟨shown, hshown, hsame⟩ := h.exists_shown hemitted
    exact ⟨place, shown, hshown, by rw [Piece.attributes, hsame, propertyAttributes_lowered h]⟩
  | slot hslot | placeholder hslot | projection hslot | loop hslot | condition hslot | otherwise hslot =>
    cases hother hslot

theorem NodeLowered.readsBack (h : NodeLowered fields m n n') (hopens : OpensTag n' p)
    (htag : p.isTag = true) (hn : HasAttributeNames n) (rest : Text) : ReadsBack fields m n n' p rest := by
  have hn' := h.hasAttributeNames hn
  have hread := (readTag_laidOut_iff htag (hopens.isSelector hn')
    (hopens.isAttributeName hn' h.hasEncodedCode) rest).trans (hopens.isEncoded_iff h.hasEncodedCode)
  have hplain : (∀ a ∈ propertyAttributes n, a.IsEncoded) → CodePoint.char '"' ∉ n.scope.forName.display →
      ∀ a ∈ literalAttributes n', a.IsEncoded := by
    intro hproperties hscope
    unfold literalAttributes
    split
    next => rwa [propertyAttributes_lowered h]
    next =>
      rw [h.scope]
      exact List.forall_mem_singleton.mpr (isEncoded_of.mpr hscope)
    next => rintro _ ⟨⟩
  refine ⟨hread, fun hproperties hscope => hread.mpr (hplain hproperties hscope), fun hrule => ?_⟩
  obtain ⟨place, shown, hshown, hattributes⟩ := h.exists_attributes hopens hrule
  refine ⟨place, shown, hshown, hattributes, fun hplain => ?_⟩
  have hliteral : ∀ a ∈ literalAttributes n', a.IsEncoded := by
    rw [literalAttributes, hrule, propertyAttributes_lowered h]
    exact fun a ha => (hplain a ha).quote
  have hdecoded : (shown.flatten.map Attribute.encoded).map Attribute.decoded =
      shown.flatten.map Attribute.decoded := by
    rw [List.map_map]
    exact List.map_congr_left fun s _ => s.decoded_encoded
  rw [hread.mpr hliteral, hattributes, List.map_append, List.map_append, hdecoded,
    IsPlainLiteral.map_eq hplain]

/-- The tags of a view: each is opened by what a node was made into, stands in the view behind what
    comes before it, and is read there. -/
def ReadsTags (o : CompileOptions) (c c' : Component) (m : Members) (block : Block) (imports : Text) : Prop :=
  ∀ before p after, block.pieces = before ++ p :: after → p.isTag = true →
    ∃ n ∈ c.nodes, ∃ n', NodeLowered (c.refFields m.domRefs) m n n' ∧ OpensTag n' p ∧
      (HasAttributeNames n →
        indentedView o.targetVersion imports (block.text ++ viewTail c') =
          viewBefore o.targetVersion imports (piecesText before) ++
            (p.laidOut.text ++ viewAfter o.targetVersion (piecesText after ++ viewTail c')) ∧
        ReadsBack (c.refFields m.domRefs) m n n' p
          (viewAfter o.targetVersion (piecesText after ++ viewTail c')))

theorem RendersView.readsTags (h : RendersView o c a m c' block) (hc : c.HasTexts) (imports : Text) :
    ReadsTags o c c' m block imports := by
  intro before p after hsplit htag
  have hp : p ∈ block.pieces := by
    rw [hsplit]
    exact List.mem_append_right _ List.mem_cons_self
  obtain ⟨n, hn, n', hnode, hopens⟩ := h.exists_opensTag hc hp htag
  refine ⟨n, hn, n', hnode, hopens, fun hnames => ⟨?_, hnode.readsBack hopens htag hnames _⟩⟩
  have hnames' := hnode.hasAttributeNames hnames
  have htext : block.text ++ viewTail c' =
      piecesText before ++ (p.text ++ (piecesText after ++ viewTail c')) := by
    rw [Block.text, hsplit, piecesText_append, piecesText, List.append_assoc, List.append_assoc]
  rw [htext, indentedView_tag htag (hopens.isSelector hnames')
    (hopens.isAttributeName hnames' hnode.hasEncodedCode)]

/-- Every attribute of the view reads back: as it was emitted when no literal has a double quote, and
    then a literal of one line without marks as it was given. A valid component is compiled when its
    refs have plain names. -/
theorem attributes_read_back (hplugins : o.plugins = some .empty) (hgiven : o.suppressed.isGiven = false)
    (hc : c.HasTexts) :
    (∀ compiled, compile o c = .ok compiled → ∃ a log m c' block imports, build o .empty c = .ok a ∧
      finish o .empty a.parts.text = .ok (compiled.text, log) ∧ RendersView o c a m c' block ∧
      a.parts.view = escapeTemplate (indentedView o.targetVersion imports (block.text ++ viewTail c')) ∧
      ReadsTags o c c' m block imports) ∧
    (IsPlain o → c.IsTyped → c.validate = .ok () → (∀ domRefs, c.domRefs = .ok domRefs →
      ∀ f ∈ c.refFields domRefs, CodePoint.char '\\' ∉ f.1) → ∃ compiled, compile o c = .ok compiled) := by
  refine ⟨fun compiled hcompiled => ?_, fun ho htyped hvalid hplain =>
    exists_compile_of_plainNames ho htyped hvalid hplain⟩
  obtain ⟨_, a, log, hbuild, hfinish⟩ := compile_eq_ok hplugins hgiven hcompiled
  obtain ⟨m, c', block, hview⟩ := exists_rendersView hbuild
  obtain ⟨imports, himports⟩ := hview.view
  exact ⟨a, log, m, c', block, imports, hbuild, hfinish, hview, himports, hview.readsTags hc imports⟩

end View

/-- A component with one element, which has a title and shows an item of a list. -/
def card (title : Text) : Component where
  name := .str "Card"
  children := [⟨.str "p", [("title", .str title)],
    [("value", some ⟨.str "labels[\"a\"]", .str "labels[\"a\"]", .normal, .null⟩)], [], .empty, none, []⟩]
  state := []
  props := []
  propsTypeRef := .null
  defaultProps := []
  refs := []
  hooks := ⟨none, none, [], none⟩
  context := ⟨[], []⟩
  imports := []
  exports := []
  metadata := []
  types := []
  css := .null

section Card

variable {title : Text}

theorem card_isTyped (title : Text) : (card title).IsTyped := by
  refine Component.IsBare.isTyped ⟨rfl, rfl, rfl, rfl, rfl⟩ (List.forall_mem_singleton.mpr ?_)
    (List.forall_mem_nil _) (List.forall_mem_nil _) (Component.resolvesTexts_of_none rfl rfl)
  exact ⟨⟨_, rfl⟩, List.forall_mem_singleton.mpr ⟨_, rfl⟩,
    List.forall_mem_singleton.mpr ⟨_, rfl, ⟨_, rfl⟩, .inr ⟨_, rfl⟩, .inl rfl⟩⟩

theorem card_plain : ∀ domRefs, (card title).domRefs = .ok domRefs →
    ∀ f ∈ (card title).refFields domRefs, CodePoint.char '\\' ∉ f.1 :=
  Component.forall_refFields_of_none rfl rfl

theorem bindingCode_card : Members.bindingCode ⟨[], [], [], [], []⟩ (.str "labels[\"a\"]") =
    .ok (.str "labels[&quot;a&quot;]") := by
  have hstripped : Snippet.strip (.before "") "labels[\"a\"]" = "labels[\"a\"]" :=
    Snippet.strip_of_noPoint _ (by decide)
  rw [bindingCode_stripped rfl, hstripped]
  rfl

/-- The element of the component, once its code has been encoded. -/
def cardNode (title : Text) : Node :=
  ⟨.str "p", [("title", .str title)],
    [("value", some ⟨.str "labels[&quot;a&quot;]", .str "labels[\"a\"]", .normal, .null⟩)], [], .empty, none, []⟩

theorem lowered_card : lowered .empty ⟨[], [], [], [], []⟩ (card title) =
    .ok { card title with children := [cardNode title] } := by
  refine lowered_eq_ok.mpr ⟨card title, rfl, ?_⟩
  simp only [card, Visitor.visit, Visitor.visitNodes, Visitor.visitNode, Visitor.visitBranch,
    Visitor.mapEntries, CodeProcessor.steps, Members.processor, onBindingCode, bindingCode_card]
  rfl

/-- The tag that the element opens. -/
def cardTag (title : Text) : Piece :=
  .opening "p" [.of "title" title, .of "value.bind" "labels[&quot;a&quot;]"]

theorem rendersView_card {a : Assembled} {m : Members} {c' : Component} {block : Block}
    (h : RendersView (formattedBy none) (card title) a m c' block) :
    block.pieces = [cardTag title, .raw "\n", .closing "p"] := by
  have hmembers : Members.collect (formattedBy none) (card title) = .ok ⟨[], [], [], [], []⟩ := rfl
  obtain rfl := Except.ok.inj (hmembers.symm.trans h.collect)
  obtain rfl := Except.ok.inj (lowered_card.symm.trans h.lowered)
  have hrendered : renderChildren ⟨.templateRoot, [], (card title).callableNames⟩ "\n  " [cardNode title] =
      .ok ⟨[cardTag title, .raw "\n", .closing "p"], []⟩ := rfl
  obtain rfl := Except.ok.inj (hrendered.symm.trans h.rendered)
  rfl

theorem card_hasAttributeNames : ∀ n ∈ (card title).nodes, HasAttributeNames n :=
  List.forall_mem_singleton.mpr {
    tag := by
      rintro _ ⟨⟩
      decide
    properties := List.forall_mem_singleton.mpr (by decide : IsAttributeName "title")
    bindings := List.forall_mem_singleton.mpr (by decide : IsAttributeName "value") }

end Card

theorem attributes_read_back_card : ∃ compiled, ∃ a : Assembled, ∃ before after,
    compile (formattedBy none) (card "News") = .ok compiled ∧
    build (formattedBy none) .empty (card "News") = .ok a ∧
    a.parts.view = escapeTemplate (before ++ ((cardTag "News").text ++ after)) ∧
    readTag ((cardTag "News").text ++ after) =
      some ⟨"p", [.of "title" "News", .of "value.bind" "labels[\"a\"]"], after⟩ := by
  obtain ⟨hreads, hcompiles⟩ := attributes_read_back (o := formattedBy none) (c := card "News") rfl rfl
    (card_isTyped _).code
  obtain ⟨compiled, hcompiled⟩ := hcompiles (isPlain_formattedBy none) (card_isTyped _) rfl card_plain
  obtain ⟨a, _, m, c', block, imports, hbuild, _, hview, himports, htags⟩ := hreads compiled hcompiled
  obtain ⟨n, hn, n', _, _, hread⟩ := htags [] (cardTag "News") _ (rendersView_card hview) rfl
  obtain ⟨hstands, hback⟩ := hread (card_hasAttributeNames n hn)
  obtain rfl := List.mem_singleton.mp hn
  have hplain := hback.read_plain (List.forall_mem_singleton.mpr (isEncoded_of.mpr (by decide))) (by decide)
  rw [hstands] at himports
  exact ⟨compiled, a, _, _, hcompiled, hbuild, himports, hplain⟩

/-- A title with double quotes is read up to the first of them. -/
theorem quoted_title_not_read_back : (card "say \"hi\"").validate = .ok () ∧
    ∃ compiled, ∃ a : Assembled, ∃ before after,
      compile (formattedBy none) (card "say \"hi\"") = .ok compiled ∧
      build (formattedBy none) .empty (card "say \"hi\"") = .ok a ∧
      a.parts.view = escapeTemplate (before ++ ((cardTag "say \"hi\"").text ++ after)) ∧
      readTag ((cardTag "say \"hi\"").text ++ after) =
        some ⟨"p", [.of "title" "say ", ⟨"hi\"\"", none⟩, .of "value.bind" "labels[\"a\"]"], after⟩ := by
  obtain ⟨compiled, hcompiled⟩ := exists_compile_of_plainNames (isPlain_formattedBy none)
    (card_isTyped "say \"hi\"") rfl card_plain
  obtain ⟨_, a, _, hbuild, _⟩ := compile_eq_ok rfl rfl hcompiled
  obtain ⟨m, c', block, hview⟩ := exists_rendersView hbuild
  obtain ⟨imports, himports⟩ := hview.view
  obtain ⟨n, hn, n', _, _, hread⟩ :=
    hview.readsTags (card_isTyped _).code imports [] (cardTag "say \"hi\"") _ (rendersView_card hview) rfl
  obtain ⟨hstands, _⟩ := hread (card_hasAttributeNames n hn)
  rw [assembleView, ← indentedView, hstands] at himports
  exact ⟨rfl, compiled, a, _, _, hcompiled, hbuild, himports, rfl⟩

end ElementCompiler.Module
