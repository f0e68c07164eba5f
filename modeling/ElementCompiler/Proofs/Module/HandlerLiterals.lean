import ElementCompiler.Proofs.Markup.EncodedHandlers
import ElementCompiler.Proofs.Markup.LoopIndexes
import ElementCompiler.Proofs.Module.Attributes
import ElementCompiler.Proofs.Module.StateInView
import ElementCompiler.Proofs.Snippet.RefLiterals

set_option autoImplicit false

/-!
The string literals of handlers. Refs and members are put in place, double quotes are encoded, and only
then is the parameter renamed; the handler in the view has the literals of its code when none of these
passes can take a part of a literal for code.
-/

namespace ElementCompiler.Module

open Attempt Markup Snippet Text

/-- The literals of a handler are left to themselves: each is closed and stands on one line, none reads
    the current value of a ref, and one in double quotes neither uses the parameter nor has a single
    quote. -/
structure KeepsLiterals (fields : List (Text × Text)) (argument code : Text) : Prop where
  closed : ∀ l ∈ literals code, isClosed l = true
  line : ∀ l ∈ literals code, CodePoint.char '\n' ∉ l
  refs : ∀ f ∈ fields, ∀ l ∈ literals code, uses l (f.1 ++ ".current") = false
  doubled : KeepsDoubled argument code

section Values

variable {fields : List (Text × Text)} {m : Members} {key code shown : Text}

theorem literals_shownCode (hkey : key ≠ "ref")
    (hfields : ∀ f ∈ fields, IsName f.1 ∧ (f.2 = f.1 ∨ f.2 = "_" ++ f.1))
    (hrefs : ∀ f ∈ fields, ∀ l ∈ literals code, uses l (f.1 ++ ".current") = false)
    (h : shownCode fields m key (.str code) = .ok (.str shown)) : literals shown = literals code := by
  obtain ⟨moved, hmoved, hsame⟩ : ∃ moved, relocateRefs fields "" (.str code) = .ok (.str moved) ∧
      literals moved = literals code := by
    have hlead : ∀ c ∈ ofString "", isNotQuote c = true := by decide
    obtain ⟨moved, hmoved, hdropped⟩ := literals_relocateRefs hlead (fun f hf =>
      ⟨(hfields f hf).1, isNotQuote_field (hfields f hf).1 (hfields f hf).2⟩) code
    exact ⟨moved, hmoved, hdropped.trans (map_withoutCurrent_eq_self_iff.mpr hrefs)⟩
  have hrefCode : refCode fields key (.str code) = .ok (.str moved) :=
    (if_neg (by simpa using hkey)).trans hmoved
  rw [shownCode, hrefCode, ok_bind] at h
  have hshown : (if moved.isEmpty then moved
      else relocateMembers m.outputVars instanceLead (.before "") moved) = shown := Json.str.inj (Except.ok.inj h)
  rw [← hshown, ← hsame]
  split
  next => rfl
  next => exact literals_relocateMembers (by decide) (by rintro _ ⟨⟩) _ _

theorem literals_laidOut {called : Text} (hmark : occursIn quoteMark called = false)
    (hline : ∀ l ∈ literals called, CodePoint.char '\n' ∉ l) :
    literals (decodeQuotes (indentWithin 6 (indentWithin 2 (indentRest 2 (encodeQuotes called))))) =
      literals called := by
  rw [decodeQuotes_indentWithin, decodeQuotes_indentWithin, decodeQuotes_indentRest, decodeQuotes_encodeQuotes,
    decodeQuotes_eq_self hmark]
  have hfirst := literals_indentRest 2 hline
  have hsecond := literals_indentWithin 2 (hfirst.symm ▸ hline)
  rw [literals_indentWithin 6 (by rwa [hsecond, hfirst]), hsecond, hfirst]

end Values

section View

variable {version : TargetVersion} {imports : Text}

/-- What is written before the value of an attribute, up to its first quote. -/
def valueLead (name : Text) : Text := " " ++ name ++ "="

theorem indentedView_quoted (before value after : Text) :
    indentedView version imports (before ++ .char '"' :: (value ++ .char '"' :: after)) =
      viewBefore version imports before ++
        .char '"' :: (indentWithin 6 (indentWithin 2 value) ++ .char '"' :: viewAfter version after) := by
  have hwrapped : wrapView version (indentRest 2 (viewContent imports
        (before ++ .char '"' :: (value ++ .char '"' :: after)))) =
      (viewOpening version ++ indentWithin 2 (viewContent imports before)) ++
        .char '"' :: (indentWithin 2 value ++ .char '"' :: (indentRest 2 after ++ viewClosing version)) := by
    rw [viewContent_append, indentRest_append_cons (by decide), indentRest_append_cons (by decide), wrapView_eq]
    simp
  rw [indentedView, hwrapped, indentRest_append_cons (by decide), indentRest_append_cons (by decide)]
  rfl

theorem exists_text_of_attribute {ps : List Piece} {p : Piece} {a : Attribute} (hp : p ∈ ps)
    (ha : a ∈ p.attributes) : ∃ before after, piecesText ps = before ++ (a.text ++ after) := by
  obtain ⟨front, back, rfl⟩ := List.append_of_mem hp
  obtain ⟨first, rest, hattributes⟩ := List.append_of_mem ha
  refine ⟨piecesText front ++ ("<" ++ p.tag ++ attributesText first),
    attributesText rest ++ p.ending ++ piecesText back, ?_⟩
  rw [piecesText_append, piecesText, Piece.text_of_isTag (Piece.isTag_of_mem_attributes ha), hattributes,
    attributesText_append, attributesText]
  simp [ofString]

end View

section Emission

variable {fields : List (Text × Text)} {m : Members} {n n' : Node} {place : Place} {e : Emitted} {b x : Binding}
  {key argument code value : Text}

theorem event_mem_emitted (h : emitAll n place = .ok e) (hb : (key, some b) ∈ n.bindings)
    (hrule : BindingRule.of key b.mode = .event) (hemits : suppressesEvents n = .ok false)
    (hargument : eventArgument b.arguments = .ok argument)
    (hvalue : handlerValue argument b.code place.callableNames = .ok value) :
    Attribute.of (eventName key n ++ ".delegate") (indentRest 2 value) ∈ e.attributes := by
  obtain ⟨sources, es, hes, rfl⟩ := emitAll_eq_ok h
  obtain ⟨e, he, y, hy, hemitted⟩ := exists_right hes _ hb
  obtain rfl := Option.some.inj hy
  rw [concat_attributes, List.mem_flatMap]
  cases givesEmitted_of_rule hrule hemitted with
  | suppressed hyes => exact absurd (Except.ok.inj (hyes.symm.trans hemits)) (by decide)
  | event _ hargument' hvalue' =>
    obtain rfl := Except.ok.inj (hargument'.symm.trans hargument)
    obtain rfl := Except.ok.inj (hvalue'.symm.trans hvalue)
    exact ⟨_, he, List.mem_cons_self⟩

theorem exists_handlerValue (argument code : Text) (names : List Text) :
    ∃ value, handlerValue argument (.str code) names = .ok value := ⟨_, rfl⟩

end Emission

/-- The value of an attribute as the view shows it. -/
def viewedValue (value : Text) : Text := indentWithin 6 (indentWithin 2 (indentRest 2 value))

/-- What the view shows for a handler of a node at the place where the node is rendered. -/
structure ShowsHandler (version : TargetVersion) (imports text : Text) (fields : List (Text × Text))
    (m : Members) (place : Place) (n : Node) (key argument code : Text) (shown value : Text) : Prop where
  moved : shownCode fields m key (.str code) = .ok (.str shown)
  valued : handlerValue argument (.str (encodeQuotes shown)) place.callableNames = .ok value
  viewed : ∃ before after,
    text = before ++ ((Attribute.of (eventName key n ++ ".delegate") (indentRest 2 value)).text ++ after) ∧
      indentedView version imports text =
        viewBefore version imports (before ++ valueLead (eventName key n ++ ".delegate")) ++
          .char '"' :: (viewedValue value ++ .char '"' :: viewAfter version after)
  kept : KeepsLiterals fields argument code →
    value = encodeQuotes (calledCode place.callableNames (handledCode argument shown)) ∧
      List.Forall₂ (IsRenamed argument) (segments shown) (segments (renameArgument argument eventToken shown)) ∧
      (occursIn quoteMark (calledCode place.callableNames (handledCode argument shown)) = false →
        literals (decodeQuotes (viewedValue value)) = literals code)

section Claim

variable {o : CompileOptions} {c c' : Component} {a : Assembled} {m : Members} {block : Block}
  {fields : List (Text × Text)} {n n' : Node} {place : Place} {x : Binding} {key argument code : Text}

theorem outputVars_of_isPlain (ho : IsPlain o) (h : Members.collect o c = .ok m) : m.outputVars = [] := by
  obtain ⟨props, _, h⟩ := bind_eq_ok.mp h
  rw [experimentalOf, ho.experimental, ok_bind] at h
  obtain ⟨outputVars, hnone, h⟩ := bind_eq_ok.mp h
  obtain rfl := Except.ok.inj hnone
  obtain ⟨domRefs, _, h⟩ := bind_eq_ok.mp h
  obtain rfl := Except.ok.inj h
  rfl

theorem eventName_congr (h : n'.name = n.name) (key : Text) : eventName key n' = eventName key n := by
  rw [eventName, eventName, h]

theorem showsHandler_of_rendered {version : TargetVersion} {imports tail : Text} {k : Block}
    (hnode : NodeLowered fields m n n') (hfields : ∀ f ∈ fields, IsName f.1 ∧ (f.2 = f.1 ∨ f.2 = "_" ++ f.1))
    (hk : renderNode place n' = .ok k) (hwithin : k.Within block) (helement : blockRule n' = .ok .element)
    (hemits : suppressesEvents n = .ok false) (hb : (key, some x) ∈ n.bindings)
    (hrule : BindingRule.of key x.mode = .event) (hcode : x.code = .str code)
    (hargument : eventArgument x.arguments = .ok argument) (hname : IsName argument) (hne : argument ≠ "quot") :
    ∃ shown value,
      ShowsHandler version imports (block.text ++ tail) fields m place n key argument code shown value := by
  obtain ⟨shown, hshown, hb'⟩ := hnode.exists_shownCode hb
  rw [hcode] at hshown
  obtain ⟨value, hvalue⟩ := exists_handlerValue argument (encodeQuotes shown) place.callableNames
  have hemits' : suppressesEvents n' = .ok false := by
    rw [suppressesEvents, hnode.properties]
    exact hemits
  obtain ⟨p, hp, e, hemitted, -, hattributes⟩ := exists_written_tag helement hk
  have hmem : Attribute.of (eventName key n ++ ".delegate") (indentRest 2 value) ∈ p.attributes := by
    rw [hattributes, ← eventName_congr hnode.name]
    exact List.mem_append_right _ (event_mem_emitted hemitted hb' hrule hemits' hargument hvalue)
  obtain ⟨before, after, hsplit⟩ :=
    exists_text_of_attribute ((hwithin (text_ne_nil_of_tag hp hmem)).subset hp) hmem
  refine ⟨shown, value, hshown, hvalue, ⟨before, after ++ tail, ?_, ?_⟩, fun hkeeps => ?_⟩
  · rw [Block.text, hsplit, List.append_assoc, List.append_assoc]
  · have hquoted : block.text ++ tail = before ++ valueLead (eventName key n ++ ".delegate") ++
        .char '"' :: (indentRest 2 value ++ .char '"' :: (after ++ tail)) := by
      rw [Block.text, hsplit, List.append_assoc, List.append_assoc, text_valued]
      simp [valueLead, ofString]
    rw [hquoted, indentedView_quoted]
    rfl
  · have hsame := literals_shownCode (key_ne_ref hrule (by decide)) hfields hkeeps.refs hshown
    have hdoubled : KeepsDoubled argument shown := by
      rw [KeepsDoubled, hsame]
      exact hkeeps.doubled
    have hclosed : HasClosed shown := hasClosed_iff.mpr (hsame.symm ▸ hkeeps.closed)
    obtain rfl := Except.ok.inj ((handlerValue_encodeQuotes hname hne hdoubled).symm.trans hvalue)
    refine ⟨rfl, isRenamed_segments argument shown, fun hmark => ?_⟩
    have hcalled : literals (calledCode place.callableNames (handledCode argument shown)) = literals code :=
      (literals_handled place.callableNames hclosed).trans hsame
    rw [viewedValue, literals_laidOut hmark (hcalled.symm ▸ hkeeps.line), hcalled]

/-- A handler in the view has the string literals of its code, and its parameter is renamed only outside
    them, when every literal is closed, on one line, without the current value of a ref, and, in double
    quotes, without the parameter and single quotes; and when the handler has no mark for a double quote
    of its own. A valid component is compiled when its refs have plain names. -/
theorem handler_literals_kept (hplugins : o.plugins = some .empty) (hgiven : o.suppressed.isGiven = false)
    (hc : c.HasTexts) (hrefs : ∀ domRefs, c.domRefs = .ok domRefs → ∀ f ∈ c.refFields domRefs, IsName f.1) :
    (∀ compiled, compile o c = .ok compiled → ∃ a log m c' block imports, build o .empty c = .ok a ∧
      finish o .empty a.parts.text = .ok (compiled.text, log) ∧ RendersView o c a m c' block ∧
      a.parts.view = escapeTemplate (indentedView o.targetVersion imports (block.text ++ viewTail c')) ∧
      List.Forall₂ (NodeLowered (c.refFields m.domRefs) m) c.nodes c'.nodes ∧
      ∀ n n', NodeLowered (c.refFields m.domRefs) m n n' → blockRule n' = .ok .element →
        suppressesEvents n = .ok false →
        ∀ root ∈ c'.children, ∀ place, StandsIn ⟨.templateRoot, [], c'.callableNames⟩ root place n' →
        ∀ key x code argument, (key, some x) ∈ n.bindings → BindingRule.of key x.mode = .event →
          x.code = .str code → eventArgument x.arguments = .ok argument → IsName argument →
          argument ≠ "quot" → ∃ shown value, ShowsHandler o.targetVersion imports (block.text ++ viewTail c')
            (c.refFields m.domRefs) m place n key argument code shown value) ∧
    (IsPlain o → c.IsTyped → c.validate = .ok () → ∃ compiled, compile o c = .ok compiled) := by
  refine ⟨fun compiled hcompiled => ?_, fun ho htyped hvalid => ?_⟩
  · obtain ⟨_, a, log, hbuild, hfinish⟩ := compile_eq_ok hplugins hgiven hcompiled
    obtain ⟨m, c', block, hview⟩ := exists_rendersView hbuild
    obtain ⟨imports, himports⟩ := hview.view
    have hfields : ∀ f ∈ c.refFields m.domRefs, IsName f.1 ∧ (f.2 = f.1 ∨ f.2 = "_" ++ f.1) := fun f hf =>
      ⟨hrefs m.domRefs (collect_names hview.collect).2.2 f hf,
        (mem_refFields hf).imp And.right And.right⟩
    refine ⟨a, log, m, c', block, imports, hbuild, hfinish, hview, himports, nodes_lowered hc hview.lowered,
      fun n n' hnode helement hemits root hroot place hstands key x code argument hb hrule hcode hargument
        hname hne => ?_⟩
    obtain ⟨k, hk, hbelow⟩ := exists_renderNode_of_children hview.rendered hroot
    obtain ⟨inner, hinner, hwithin⟩ := hstands.within hk
    exact showsHandler_of_rendered hnode hfields hinner (fun hne => (hwithin hne).trans hbelow) helement hemits hb
      hrule hcode hargument hname hne
  · exact exists_compile_of_plainNames ho htyped hvalid fun domRefs hdomRefs f hf =>
      notMem_of_isName (hrefs domRefs hdomRefs f hf)

end Claim

/-- A component with a button. -/
def sender (code : Text) : Component where
  name := .str "Sender"
  children := [⟨.str "button", [], [("onClick", some (.ofCode (.str code) .normal))], [], .empty, none, []⟩]
  state := []
  props := []
  propsTypeRef := .null
  defaultProps := []
  refs := []
  hooks := ⟨none, none, [], none⟩
  context := ⟨[], []⟩
  imports := []
  exports := []
  metadata := []
  types := []
  css := .null

section Sender

variable {code value : Text}

theorem sender_isTyped (code : Text) : (sender code).IsTyped := by
  refine Component.IsBare.isTyped ⟨rfl, rfl, rfl, rfl, rfl⟩ (List.forall_mem_singleton.mpr ?_)
    (List.forall_mem_nil _) (List.forall_mem_nil _) (Component.resolvesTexts_of_none rfl rfl)
  exact ⟨⟨_, rfl⟩, List.forall_mem_nil _,
    List.forall_mem_singleton.mpr ⟨_, rfl, ⟨_, rfl⟩, .inr ⟨_, rfl⟩, .inl rfl⟩⟩

theorem sender_refs : ∀ domRefs, (sender code).domRefs = .ok domRefs →
    ∀ f ∈ (sender code).refFields domRefs, IsName f.1 :=
  Component.forall_refFields_of_none rfl rfl

/-- The button of the component, once its code has been encoded. -/
def senderNode (code : Text) : Node :=
  ⟨.str "button", [], [("onClick", some ⟨.str (encodeQuotes code), .str code, .normal, .null⟩)], [], .empty,
    none, []⟩

theorem shownCode_sender {m : Members} (hm : m.domRefs = []) (houtputs : m.outputVars = [])
    (hpoint : CodePoint.char '.' ∉ code) :
    shownCode ((sender code).refFields m.domRefs) m "onClick" (.str code) = .ok (.str code) := by
  have hrefs : refCode ((sender code).refFields m.domRefs) "onClick" (.str code) = .ok (.str code) := by
    rw [hm]
    exact (if_neg (by decide)).trans (ite_self _)
  have hmembers : relocateMembers m.outputVars instanceLead (.before "") code = code := by
    rw [houtputs]
    exact strip_of_noPoint _ hpoint
  rw [shownCode, hrefs, ok_bind, onGiven, hmembers, ite_self]

theorem lowered_sender {m : Members} (hm : m.domRefs = []) (houtputs : m.outputVars = [])
    (hpoint : CodePoint.char '.' ∉ code) :
    lowered .empty m (sender code) = .ok { sender code with children := [senderNode code] } := by
  have hcode : m.bindingCode (.str code) = .ok (.str (encodeQuotes code)) := by
    rw [bindingCode_stripped houtputs, strip_of_noPoint _ hpoint]
  refine lowered_eq_ok.mpr ⟨sender code, by rw [hm]; rfl, ?_⟩
  simp only [sender, Visitor.visit, Visitor.visitNodes, Visitor.visitNode, Visitor.visitBranch,
    Visitor.mapEntries, CodeProcessor.steps, Members.processor, onBindingCode, Binding.ofCode, hcode]
  rfl

theorem renderNode_sender
    (hvalue : handlerValue "event" (.str (encodeQuotes code)) [] = .ok value) :
    renderNode ⟨.templateRoot, [], []⟩ (senderNode code) =
      .ok ⟨[.opening "button" [.of "click.delegate" (indentRest 2 value)], .raw "\n", .closing "button"], []⟩ := by
  have hemitted : emitAll (senderNode code) ⟨.templateRoot, [], []⟩ =
      .ok ⟨[.of "click.delegate" (indentRest 2 value)], [], []⟩ := by
    change (handlerValue "event" (.str (encodeQuotes code)) [] >>= fun value =>
      Except.ok (Emitted.concat [.single "click.delegate" (indentRest 2 value)])) = _
    rw [hvalue]
    rfl
  have hrule : blockRule (senderNode code) = .ok .element := rfl
  rw [renderNode_of_rule hrule]
  change (emitAll (senderNode code) ⟨.templateRoot, [], []⟩ >>= fun emitted =>
    Except.ok (elementBlock "button" [] emitted ⟨[], []⟩)) = _
  rw [hemitted]
  rfl

theorem handlerValue_of_renamed {argument : Text} (h : renameArgument argument eventToken code = value)
    (hbare : headIs (· == .char '\x7b') (trim value) = false) :
    handlerValue argument (.str code) [] = .ok value := by
  change Except.ok (unwrapBlock (renameArgument argument eventToken code)) = _
  rw [h, unwrapBlock_bare hbare]

theorem rendersView_sender {a : Assembled} {m : Members} {c' : Component} {block : Block}
    (hpoint : CodePoint.char '.' ∉ code)
    (hvalue : handlerValue "event" (.str (encodeQuotes code)) [] = .ok value)
    (h : RendersView (formattedBy none) (sender code) a m c' block) :
    c' = { sender code with children := [senderNode code] } ∧ block.pieces =
      [.opening "button" [.of "click.delegate" (indentRest 2 value)], .raw "\n", .closing "button"] := by
  have hm : [] = m.domRefs := Except.ok.inj (collect_names h.collect).2.2
  have houtputs := outputVars_of_isPlain (isPlain_formattedBy none) h.collect
  obtain rfl := Except.ok.inj ((lowered_sender hm.symm houtputs hpoint).symm.trans h.lowered)
  have hrendered : renderChildren ⟨.templateRoot, [], []⟩ "\n  " [senderNode code] = _ :=
    renderChildren_singleton (renderNode_sender hvalue) rfl
  obtain rfl := Except.ok.inj (hrendered.symm.trans h.rendered)
  exact ⟨rfl, rfl⟩

end Sender

theorem handler_literals_kept_sent : ∃ compiled, ∃ a : Assembled, ∃ imports before after,
    compile (formattedBy none) (sender "log(\"sent\", event)") = .ok compiled ∧
    build (formattedBy none) .empty (sender "log(\"sent\", event)") = .ok a ∧
    a.parts.view = escapeTemplate (viewBefore .v1 imports (before ++ valueLead "click.delegate") ++
      .char '"' :: (ofString "log(&quot;sent&quot;, $event)" ++ .char '"' :: viewAfter .v1 after)) ∧
    literals (decodeQuotes "log(&quot;sent&quot;, $event)") = literals "log(\"sent\", event)" := by
  have hvalue : handlerValue "event" (.str (encodeQuotes "log(\"sent\", event)")) [] =
      .ok "log(&quot;sent&quot;, $event)" := handlerValue_of_renamed (by decide +kernel) (by decide)
  have hliterals : literals "log(\"sent\", event)" = ["\"sent\""] := by decide +kernel
  obtain ⟨hkept, hcompiles⟩ := handler_literals_kept (o := formattedBy none)
    (c := sender "log(\"sent\", event)") rfl rfl (sender_isTyped _).code sender_refs
  obtain ⟨compiled, hcompiled⟩ := hcompiles (isPlain_formattedBy none) (sender_isTyped _) rfl
  obtain ⟨a, _, m, c', block, imports, hbuild, _, hview, himports, hnodes, hshown⟩ := hkept compiled hcompiled
  obtain ⟨rfl, -⟩ := rendersView_sender (by decide) hvalue hview
  obtain _ | ⟨hnode, -⟩ := hnodes
  obtain ⟨shown, value, hshows⟩ := hshown _ _ hnode rfl rfl _ List.mem_cons_self _ (.self _ _) "onClick" _ _ "event"
    List.mem_cons_self rfl rfl rfl ⟨by decide, by decide⟩ (by decide)
  have hdomRefs : [] = m.domRefs := Except.ok.inj (collect_names hview.collect).2.2
  have houtputs := outputVars_of_isPlain (isPlain_formattedBy none) hview.collect
  have hmoved := shownCode_sender hdomRefs.symm houtputs
    (by decide : CodePoint.char '.' ∉ ofString "log(\"sent\", event)")
  obtain rfl := Json.str.inj (Except.ok.inj (hmoved.symm.trans hshows.moved))
  obtain rfl := Except.ok.inj (hvalue.symm.trans hshows.valued)
  obtain ⟨before, after, -, hviewed⟩ := hshows.viewed
  have hfields : (sender "log(\"sent\", event)").refFields m.domRefs = [] := by
    rw [← hdomRefs]
    rfl
  obtain ⟨-, -, hsame⟩ := hshows.kept {
    closed := by rw [hliterals]; decide +kernel
    line := by rw [hliterals]; decide
    refs := by rw [hfields]; rintro _ ⟨⟩
    doubled := by rw [KeepsDoubled, hliterals]; decide }
  rw [hviewed] at himports
  exact ⟨compiled, a, imports, before, after, hcompiled, hbuild, himports, hsame (by decide +kernel)⟩

/-- A literal in double quotes that has the parameter for a word is shown with the token in it. -/
theorem parameter_renamed_in_literal : (sender "log(\"event\")").validate = .ok () ∧
    ∃ compiled, ∃ a : Assembled, ∃ m c' block imports,
      compile (formattedBy none) (sender "log(\"event\")") = .ok compiled ∧
      build (formattedBy none) .empty (sender "log(\"event\")") = .ok a ∧
      RendersView (formattedBy none) (sender "log(\"event\")") a m c' block ∧
      a.parts.view = escapeTemplate (indentedView .v1 imports block.text) ∧
      block.text = "<button click.delegate=\"log(&quot;$event&quot;)\">\n</button>" ∧
      literals "log(\"event\")" = ["\"event\""] ∧
      literals (decodeQuotes "log(&quot;$event&quot;)") = ["\"$event\""] := by
  have hvalue : handlerValue "event" (.str (encodeQuotes "log(\"event\")")) [] =
      .ok "log(&quot;$event&quot;)" := handlerValue_of_renamed (by decide +kernel) (by decide)
  obtain ⟨compiled, hcompiled⟩ := exists_compile_of_plainNames (isPlain_formattedBy none)
    (sender_isTyped "log(\"event\")") rfl fun domRefs hdomRefs f hf =>
      notMem_of_isName (sender_refs domRefs hdomRefs f hf)
  obtain ⟨_, a, _, hbuild, _⟩ := compile_eq_ok rfl rfl hcompiled
  obtain ⟨m, c', block, hview⟩ := exists_rendersView hbuild
  obtain ⟨imports, himports⟩ := hview.view
  obtain ⟨rfl, hpieces⟩ := rendersView_sender (by decide) hvalue hview
  refine ⟨rfl, compiled, a, m, _, block, imports, hcompiled, hbuild, hview, ?_, ?_, ?_, ?_⟩
  · exact (List.append_nil block.text) ▸ himports
  · rw [Block.text, hpieces]
    rfl
  · decide +kernel
  · decide +kernel

end ElementCompiler.Module
