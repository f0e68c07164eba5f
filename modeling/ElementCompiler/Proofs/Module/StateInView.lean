import ElementCompiler.Proofs.Markup.Standing
import ElementCompiler.Proofs.Module.ClassSnippets
import ElementCompiler.Proofs.Module.LoweredNodes
import ElementCompiler.Proofs.Module.Props
import ElementCompiler.Proofs.Module.StateReferences
import ElementCompiler.Proofs.Module.Usage
import ElementCompiler.Proofs.Module.ViewTags

set_option autoImplicit false

/-!
A member of the state as a text of the view and as a published value. Both passes have taken the
member from behind its group before the text is rendered, so its bare name is read like any other: as
the children, as a slot, or as the index of a loop around it.
-/

namespace ElementCompiler.Module

open Attempt Markup Snippet Text

/-- What is shown for a text that is bound to a name. -/
def shownName (x : Text) (place : Place) : List Piece :=
  if x = childrenProp then element "slot" [] [] else interpolation x place

/-- The name is shown as the member that has it. -/
structure IsShownItself (x : Text) (place : Place) : Prop where
  notChildren : x ≠ childrenProp
  notSlot : isSlotKey x = false
  index : x ∈ place.indexNames → x = indexToken

section Names

variable {x : Text} {place : Place} {n n' : Node} {fields : List (Text × Text)} {m : Members}

theorem getD_after?_props (hx : IsName x) : (after? "props." x).getD x = x := by
  cases hafter : after? (ofString "props.") x with
  | none => rfl
  | some rest =>
    have hpoint : CodePoint.char '.' ∈ x := by
      rw [eq_append_of_after? hafter]
      exact List.mem_append_left _ (by decide)
    exact absurd (hx.2 _ hpoint) (by decide)

theorem isPlaceholder_name (hx : IsName x) : isPlaceholder x = decide (x = childrenProp) := by
  have hprops : (x == ofString "props.children") = false := by
    rw [beq_eq_false_iff_ne]
    rintro rfl
    exact absurd (hx.2 (.char '.') (by decide)) (by decide)
  rw [isPlaceholder, trim_name hx, hprops, Bool.false_or, Bool.eq_iff_iff, beq_iff_eq, decide_eq_true_iff]
  rfl

theorem renderNode_boundName (h : BindsText n x) (hx : IsName x) (place : Place) :
    renderNode place n = .ok ⟨shownName x place, []⟩ := by
  rw [renderNode_of_rule h.blockRule, isPlaceholder_name hx, shownName]
  by_cases hchildren : x = childrenProp
  · simp only [hchildren, decide_true, if_true]
    rfl
  · simp only [hchildren, decide_false, if_false, Bool.false_eq_true]
    rfl

theorem interpolation_name (hx : IsName x) : interpolation x place =
    if isSlotKey x then element "slot" [.of "select" ("[" ++ slotSelector x ++ "]")] []
    else if x ∈ place.indexNames then [.raw ("$\x7b" ++ indexToken ++ "\x7d")]
    else [.raw ("$\x7b" ++ x ++ "\x7d")] := by
  unfold interpolation
  rw [trim_name hx]
  dsimp only
  rw [getD_after?_props hx]
  simp only [List.contains_iff_mem]

/-- Exactly a name that is not read as anything else is shown as itself. -/
theorem shownName_eq_iff (hx : IsName x) :
    shownName x place = [.raw ("$\x7b" ++ x ++ "\x7d")] ↔ IsShownItself x place := by
  have hshown : shownName x place = [.raw ("$\x7b" ++ x ++ "\x7d")] ↔
      x ≠ childrenProp ∧ isSlotKey x = false ∧ (x ∈ place.indexNames → x = indexToken) := by
    rw [shownName, interpolation_name hx]
    by_cases hchildren : x = childrenProp
    · simp [hchildren, element]
    rw [if_neg hchildren]
    cases hslot : isSlotKey x with
    | true => simp [element]
    | false =>
      by_cases hindex : x ∈ place.indexNames
      · simp [hchildren, hindex, eq_comm (a := indexToken)]
      · simp [hchildren, hindex]
  exact hshown.trans ⟨fun h => ⟨h.1, h.2.1, h.2.2⟩, fun h => ⟨h.notChildren, h.notSlot, h.index⟩⟩

theorem text_shownName_ne_nil (hx : IsName x) : piecesText (shownName x place) ≠ [] := by
  rw [shownName, interpolation_name hx]
  split
  next => exact List.cons_ne_nil _ _
  split
  next => exact List.cons_ne_nil _ _
  split <;> exact List.cons_ne_nil _ _

/-- A text that is bound to a member of the state is bound to its name when it is lowered. -/
theorem NodeLowered.bindsText (h : NodeLowered fields m n n')
    (houtputs : ∀ name ∈ m.outputVars, isOutputName name = true)
    (hfields : ∀ f ∈ fields, IsName f.1 ∧ f.1 ≠ stateGroup) (hx : IsName x)
    (hstart : headIs (·.is isNameStart) x = true) (hn : BindsText n (stateReference x)) :
    BindsText n' x where
  notFragment := by rw [Node.isFragment, h.name]; exact hn.notFragment
  notSlot := by rw [Node.isSlot, h.name]; exact hn.notSlot
  noLiteral := by rw [h.properties]; exact hn.noLiteral
  bound := by
    obtain ⟨b, hb, hcode⟩ := hn.bound
    have hrel := Visitor.get?_visited h.bindings textKey
    rw [Node.binding?, Option.join_eq_some_iff] at hb
    rw [hb] at hrel
    generalize hget : Entries.get? n'.bindings textKey = found at hrel
    cases hrel with
    | some hlowered =>
      obtain ⟨y, code, code', hy, hrefs, hmembers, rfl⟩ := loweredBinding_eq_ok hlowered
      obtain rfl := Option.some.inj hy
      have hkey : (textKey == ofString "ref") = false := by decide
      rw [refCode, hkey, hcode, if_neg Bool.false_ne_true] at hrefs
      have hkept : relocateRefs fields "" (.str (stateReference x)) = .ok (.str (stateReference x)) := by
        rw [relocateRefs]
        exact (if_pos rfl).trans (relocateEach_stateReference hx "" hfields)
      obtain rfl := Except.ok.inj (hkept.symm.trans hrefs)
      rw [bindingCode_stateReference houtputs hx hstart] at hmembers
      obtain rfl := Except.ok.inj hmembers
      exact ⟨_, by rw [Node.binding?, hget]; rfl, rfl⟩
  given := hx.1

end Names

section View

variable {version : TargetVersion} {imports before s after : Text}

theorem indentRest_line {width : Nat} (hne : s ≠ []) (hline : CodePoint.char '\n' ∉ s) :
    indentRest width (before ++ (s ++ after)) = indentWithin width before ++ (s ++ indentRest width after) := by
  obtain ⟨c, cs, rfl⟩ := List.exists_cons_of_ne_nil hne
  rw [List.mem_cons, not_or] at hline
  rw [List.cons_append, indentRest_append_cons (Ne.symm hline.1), indentRest_append hline.2, List.cons_append]

theorem indentedView_line (hne : s ≠ []) (hline : CodePoint.char '\n' ∉ s) :
    indentedView version imports (before ++ (s ++ after)) =
      viewBefore version imports before ++ (s ++ viewAfter version after) := by
  rw [indentedView, viewContent_append, indentRest_line hne hline, wrapView_eq, List.append_assoc,
    List.append_assoc, ← List.append_assoc, indentRest_line hne hline]
  rfl

end View

section Published

variable {o : CompileOptions} {c : Component} {a : Assembled} {x : Text} {w : ContextWrite}

/-- The line that publishes a value for a context. -/
def publishLine (w : ContextWrite) (value : Text) : Text :=
  "this.eventAggregator.publish(" ++ w.name.display ++ ".key, " ++ value ++ ");"

theorem method_eq_join (name : Text) {lines : List Text} (hne : lines ≠ []) :
    ContextBridge.method name (join "\n" lines) =
      join "\n" ((name ++ "() \x7b") :: (lines ++ [ofString "\x7d"])) := by
  have hopened : unlines ((name ++ "() \x7b") :: lines) = name ++ "() \x7b" ++ .char '\n' :: unlines lines := by
    simp [unlines]
  rw [← List.cons_append, join_append_cons, join_singleton, hopened, unlines_eq_join hne, ContextBridge.method]
  simp [ofString]

theorem hasLine_of_method {name line : Text} {lines ss : List Text} (hline : line ∈ lines)
    (hss : ContextBridge.method name (join "\n" lines) ∈ ss) : HasLine ss line := by
  rw [method_eq_join name (List.ne_nil_of_mem hline)] at hss
  obtain ⟨before, after, rfl⟩ := List.append_of_mem hline
  refine ⟨(name ++ "() \x7b") :: before, after ++ [ofString "\x7d"], ?_⟩
  simpa using hss

theorem hasLine_of_bridge {context : ContextSpec} {process : CodeMapper} {bridge : ContextBridge}
    (h : ContextBridge.build context process = .ok bridge) (hw : w ∈ context.writes) {value : Json}
    (hvalue : writtenValue process w = .ok value) {ss : List Text}
    (hss : bridge.writeMethod ≠ [] → bridge.writeMethod ∈ ss) :
    HasLine ss (publishLine w value.display) := by
  obtain ⟨writes, hwrites, h⟩ := bind_eq_ok.mp h
  obtain rfl := Except.ok.inj h
  obtain ⟨line, hmem, hline⟩ := exists_right (mapM_eq_ok.mp hwrites) w hw
  rw [writeStatement, hvalue, ok_bind] at hline
  obtain rfl : publishLine w value.display = line := Except.ok.inj hline
  have hcode : join "\n" writes ≠ [] := join_ne_nil hmem (by simp [publishLine, ofString])
  have hwrites : (join "\n" writes).isEmpty = false := by simpa using hcode
  rw [ContextBridge.writeMethod, ContextBridge.hasWrites, hwrites] at hss
  exact hasLine_of_method hmem (hss (by simp [ContextBridge.method, ofString]))

/-- The class has the method that publishes, unless there is nothing in it. -/
theorem exists_publishes (h : build o .empty c = .ok a) : ∃ bridge,
    ContextBridge.build c.context publishedCode = .ok bridge ∧
      (bridge.writeMethod ≠ [] → bridge.writeMethod ∈ a.parts.sections) := by
  obtain ⟨m, experimental, parameters, outs, c', _, _, _, _, hlowered, hassemble⟩ := build_eq_ok.mp h
  obtain ⟨_, _, _, _, bridge, _, _, ss, _, _, _, _, hbridge, _, _, hsections, rfl⟩ :=
    assemble_eq_ok.mp hassemble
  have hcontext : c'.context = c.context := by rw [lowered_rest hlowered]
  obtain ⟨_, _, _, _, _, _, _, _, _, _, _, _, _, _, hss⟩ := sections_eq_ok.mp hsections
  refine ⟨bridge, hcontext ▸ hbridge, fun hne => ?_⟩
  rw [moduleParts, hss]
  simp [hne]

theorem hasLine_of_state (h : build o .empty c = .ok a) (hx : IsName x)
    (hstart : headIs (·.is isNameStart) x = true) (hw : w ∈ c.context.writes)
    (hnone : ¬ ∃ v vs, w.value = some (v :: vs)) (href : w.ref = .str (stateReference x)) :
    HasLine a.parts.sections
      (publishLine w (if x = childrenProp then "$$slots.default" else instanceLead ++ x)) := by
  obtain ⟨bridge, hbridge, hmethod⟩ := exists_publishes h
  have hvalue : writtenValue publishedCode w =
      .ok (.str (if x = childrenProp then "$$slots.default" else instanceLead ++ x)) := by
    rw [writtenValue_reference publishedCode hnone, href]
    exact (if_pos rfl).trans (publishedCode_stateReference hx hstart)
  exact hasLine_of_bridge hbridge hw hvalue hmethod

end Published

/-- What the view shows for a node that is bound to a name, at the place where the node is rendered. -/
structure ShowsName (version : TargetVersion) (imports tail : Text) (block : Block) (x : Text)
    (place : Place) (n : Node) : Prop where
  rendered : renderNode place n = .ok ⟨shownName x place, []⟩
  stands : shownName x place <:+: block.pieces
  /-- The interpolation of the name is shown exactly for a name that is not read as anything else. -/
  itself : shownName x place = [.raw ("$\x7b" ++ x ++ "\x7d")] ↔ IsShownItself x place
  viewed : IsShownItself x place → ∃ before after,
    block.pieces = before ++ .raw ("$\x7b" ++ x ++ "\x7d") :: after ∧
      indentedView version imports (block.text ++ tail) = viewBefore version imports (piecesText before) ++
        ("$\x7b" ++ x ++ "\x7d" ++ viewAfter version (piecesText after ++ tail))

section Claim

variable {o : CompileOptions} {c c' : Component} {a : Assembled} {m : Members} {block : Block} {x : Text}

theorem showsName_of_rendered {version : TargetVersion} {imports tail : Text} {sep : Text} {root n : Node}
    {roots : List Node} {place place' : Place} (hx : IsName x) (hn : BindsText n x)
    (hblock : renderChildren place sep roots = .ok block) (hroot : root ∈ roots)
    (hstands : StandsIn place root place' n) : ShowsName version imports tail block x place' n := by
  have hrendered := renderNode_boundName hn hx place'
  obtain ⟨k, hk, hbelow⟩ := exists_renderNode_of_children hblock hroot
  obtain ⟨shown, hshown, hwithin⟩ := hstands.within hk
  obtain rfl := Except.ok.inj (hrendered.symm.trans hshown)
  have hinfix : shownName x place' <:+: block.pieces := (hwithin (text_shownName_ne_nil hx)).trans hbelow
  refine ⟨hrendered, hinfix, shownName_eq_iff hx, fun hitself => ?_⟩
  rw [(shownName_eq_iff hx).mpr hitself] at hinfix
  obtain ⟨before, after, hpieces⟩ := hinfix
  rw [List.append_assoc, List.singleton_append] at hpieces
  refine ⟨before, after, hpieces.symm, ?_⟩
  have htext : block.text ++ tail =
      piecesText before ++ ("$\x7b" ++ x ++ "\x7d" ++ (piecesText after ++ tail)) := by
    rw [Block.text, ← hpieces, piecesText_append, piecesText, List.append_assoc, List.append_assoc]
    rfl
  have hline : CodePoint.char '\n' ∉ ofString "$\x7b" ++ x ++ "\x7d" := by
    have hname : CodePoint.char '\n' ∉ x := fun hmem => absurd (hx.2 _ hmem) (by decide)
    simpa [ofString] using hname
  rw [htext, indentedView_line (by simp [ofString]) hline]

/-- A text that is bound to a member of the state is shown as the interpolation of its name exactly
    when the name is not the one of the children, of a slot or of the index of a loop around it; it is
    published behind the instance, but under the name of the children as the default slot. A valid
    component is compiled when its refs have plain names. -/
theorem state_shown_by_name (hplugins : o.plugins = some .empty) (hgiven : o.suppressed.isGiven = false)
    (hc : c.HasTexts) (hrefs : ∀ domRefs, c.domRefs = .ok domRefs →
      ∀ f ∈ c.refFields domRefs, IsName f.1 ∧ f.1 ≠ stateGroup)
    (hx : IsName x) (hstart : headIs (·.is isNameStart) x = true) :
    (∀ compiled, compile o c = .ok compiled → ∃ a log m c' block imports, build o .empty c = .ok a ∧
      finish o .empty a.parts.text = .ok (compiled.text, log) ∧ RendersView o c a m c' block ∧
      a.parts.view = escapeTemplate (indentedView o.targetVersion imports (block.text ++ viewTail c')) ∧
      List.Forall₂ (NodeLowered (c.refFields m.domRefs) m) c.nodes c'.nodes ∧
      (∀ n n', NodeLowered (c.refFields m.domRefs) m n n' → BindsText n (stateReference x) →
        ∀ root ∈ c'.children, ∀ place, StandsIn ⟨.templateRoot, [], c'.callableNames⟩ root place n' →
          ShowsName o.targetVersion imports (viewTail c') block x place n') ∧
      ∀ w ∈ c.context.writes, (¬ ∃ v vs, w.value = some (v :: vs)) → w.ref = .str (stateReference x) →
        HasLine a.parts.sections
          (publishLine w (if x = childrenProp then "$$slots.default" else instanceLead ++ x))) ∧
    (IsPlain o → c.IsTyped → c.validate = .ok () → ∃ compiled, compile o c = .ok compiled) := by
  refine ⟨fun compiled hcompiled => ?_, fun ho htyped hvalid => ?_⟩
  · obtain ⟨_, a, log, hbuild, hfinish⟩ := compile_eq_ok hplugins hgiven hcompiled
    obtain ⟨m, c', block, hview⟩ := exists_rendersView hbuild
    obtain ⟨imports, himports⟩ := hview.view
    have hfields := hrefs m.domRefs (collect_names hview.collect).2.2
    have houtputs := isOutputName_of_collect hview.collect
    refine ⟨a, log, m, c', block, imports, hbuild, hfinish, hview, himports, nodes_lowered hc hview.lowered,
      fun n n' hnode hbinds root hroot place hstands => ?_, fun w hw hnone href =>
      hasLine_of_state hbuild hx hstart hw hnone href⟩
    exact showsName_of_rendered hx (hnode.bindsText houtputs hfields hx hstart hbinds) hview.rendered hroot hstands
  · exact exists_compile_of_plainNames ho htyped hvalid fun domRefs hdomRefs f hf =>
      notMem_of_isName (hrefs domRefs hdomRefs f hf).1

end Claim

/-- A component that shows a member of its state and writes it to a context. -/
def gauge (x : Text) : Component where
  name := .str "Gauge"
  children := [⟨.str "p", [], [],
    [⟨.str "Text", [], [(textKey, some (.ofCode (.str (stateReference x)) .normal))], [], .empty, none, []⟩],
    .empty, none, []⟩]
  state := [(x, ⟨.str "2", .data⟩)]
  props := []
  propsTypeRef := .null
  defaultProps := []
  refs := []
  hooks := ⟨none, none, [], none⟩
  context := ⟨[], [⟨.str "Family", none, .str (stateReference x), .null⟩]⟩
  imports := []
  exports := []
  metadata := []
  types := []
  css := .null

section Gauge

variable {x : Text}

theorem gauge_isTyped (x : Text) : (gauge x).IsTyped where
  code := {
    hooks := by rintro _ ⟨⟩
    deps := by rintro _ ⟨⟩
    state := List.forall_mem_singleton.mpr ⟨_, rfl⟩
    refs := by rintro _ ⟨⟩
    nodes := List.forall_mem_cons.mpr ⟨⟨⟨_, rfl⟩, by rintro _ ⟨⟩, by rintro _ ⟨⟩⟩,
      List.forall_mem_singleton.mpr ⟨⟨_, rfl⟩, by rintro _ ⟨⟩,
        List.forall_mem_singleton.mpr ⟨_, rfl, ⟨_, rfl⟩, .inr ⟨_, rfl⟩, .inl rfl⟩⟩⟩ }
  writes := List.forall_mem_singleton.mpr ⟨.inr ⟨_, rfl⟩, by rintro _ ⟨⟩⟩
  props := by rintro _ ⟨⟩
  propsType := .inl rfl
  refs := by rintro _ ⟨⟩
  channel := ⟨by rintro _ ⟨⟩, by rintro _ ⟨⟩⟩
  aurelia := by rintro _ ⟨⟩

theorem gauge_refs : ∀ domRefs, (gauge x).domRefs = .ok domRefs →
    ∀ f ∈ (gauge x).refFields domRefs, IsName f.1 ∧ f.1 ≠ stateGroup :=
  Component.forall_refFields_of_none rfl rfl

/-- The text of the component, once its code has been lowered. -/
def gaugeText (x : Text) : Node :=
  ⟨.str "Text", [], [(textKey, some ⟨.str x, .str (stateReference x), .normal, .null⟩)], [], .empty, none, []⟩

def gaugeNode (x : Text) : Node := ⟨.str "p", [], [], [gaugeText x], .empty, none, []⟩

theorem lowered_gauge {m : Members} (hm : m.domRefs = [])
    (hcode : m.bindingCode (.str (stateReference x)) = .ok (.str x)) :
    lowered .empty m (gauge x) = .ok { gauge x with children := [gaugeNode x] } := by
  refine lowered_eq_ok.mpr ⟨gauge x, by rw [hm]; rfl, ?_⟩
  simp only [gauge, Visitor.visit, Visitor.visitNodes, Visitor.visitNode, Visitor.visitBranch,
    Visitor.mapEntries, CodeProcessor.steps, Members.processor, onBindingCode, Binding.ofCode, hcode]
  rfl

def gaugePieces (x : Text) : List Piece :=
  .opening "p" [] :: (shownName x ⟨.children, [], []⟩ ++ [.raw "\n", .closing "p"])

theorem renderChildren_singleton {place : Place} {sep : Text} {n : Node} {pieces : List Piece}
    (h : renderNode place n = .ok ⟨pieces, []⟩) (hjoin : canBeJoined n = true) :
    renderChildren place sep [n] = .ok ⟨pieces, []⟩ := by
  have hall : [n].all canBeJoined = true := by simp [hjoin]
  rw [renderChildren, renderNodes, h, ok_bind, renderNodes, ok_bind]
  exact if_pos hall

theorem bindsText_gauge (hx : IsName x) : BindsText (gaugeText x) x :=
  ⟨rfl, rfl, rfl, ⟨_, rfl, rfl⟩, hx.1⟩

theorem renderNode_gauge (hx : IsName x) :
    renderNode ⟨.templateRoot, [], []⟩ (gaugeNode x) = .ok ⟨gaugePieces x, []⟩ := by
  have htext : renderChildren ⟨.children, [], []⟩ "\n" [gaugeText x] =
      .ok ⟨shownName x ⟨.children, [], []⟩, []⟩ := by
    refine renderChildren_singleton (renderNode_boundName (bindsText_gauge hx) hx _) ?_
    rw [canBeJoined, (bindsText_gauge hx).blockRule]
    cases isPlaceholder x <;> rfl
  have hrule : blockRule (gaugeNode x) = .ok .element := rfl
  rw [renderNode_of_rule hrule]
  change (renderChildren ⟨.children, [], []⟩ "\n" [gaugeText x] >>= fun body =>
    pure (elementBlock "p" [] ⟨[], [], []⟩ body)) = _
  rw [htext]
  rfl

theorem rendersView_gauge {a : Assembled} {m : Members} {c' : Component} {block : Block} (hx : IsName x)
    (hstart : headIs (·.is isNameStart) x = true)
    (h : RendersView (formattedBy none) (gauge x) a m c' block) :
    c' = { gauge x with children := [gaugeNode x] } ∧ block.pieces = gaugePieces x := by
  have hm : [] = m.domRefs := Except.ok.inj (collect_names h.collect).2.2
  have hlowered := lowered_gauge hm.symm
    (bindingCode_stateReference (isOutputName_of_collect h.collect) hx hstart)
  obtain rfl := Except.ok.inj (hlowered.symm.trans h.lowered)
  have hrendered : renderChildren ⟨.templateRoot, [], []⟩ "\n  " [gaugeNode x] = .ok ⟨gaugePieces x, []⟩ :=
    renderChildren_singleton (renderNode_gauge hx) rfl
  obtain rfl := Except.ok.inj (hrendered.symm.trans h.rendered)
  exact ⟨rfl, rfl⟩

end Gauge

theorem state_shown_by_name_total : ∃ compiled, ∃ a : Assembled, ∃ imports before after,
    compile (formattedBy none) (gauge "total") = .ok compiled ∧
    build (formattedBy none) .empty (gauge "total") = .ok a ∧
    a.parts.view = escapeTemplate (viewBefore .v1 imports before ++
      ("$\x7b" ++ "total" ++ "\x7d" ++ viewAfter .v1 after)) ∧
    HasLine a.parts.sections "this.eventAggregator.publish(Family.key, this.total);" := by
  have hx : IsName (ofString "total") := ⟨by decide, by decide⟩
  obtain ⟨hshows, hcompiles⟩ := state_shown_by_name (o := formattedBy none) (c := gauge "total") rfl rfl
    (gauge_isTyped _).code gauge_refs hx rfl
  obtain ⟨compiled, hcompiled⟩ := hcompiles (isPlain_formattedBy none) (gauge_isTyped _) rfl
  obtain ⟨a, _, m, c', block, imports, hbuild, _, hview, himports, hnodes, hshown, hpublished⟩ :=
    hshows compiled hcompiled
  obtain ⟨rfl, -⟩ := rendersView_gauge hx rfl hview
  obtain _ | ⟨-, _ | ⟨hnode, -⟩⟩ := hnodes
  have hstands : StandsIn ⟨.templateRoot, [], []⟩ (gaugeNode "total") ⟨.children, [], []⟩ (gaugeText "total") :=
    .step (.element rfl rfl List.mem_cons_self) (.self _ _)
  have htext := hshown _ _ hnode ⟨rfl, rfl, rfl, ⟨_, rfl, rfl⟩, by decide⟩ _ List.mem_cons_self _ hstands
  obtain ⟨before, after, -, hviewed⟩ := htext.viewed ⟨by decide, rfl, by rintro ⟨⟩⟩
  rw [hviewed] at himports
  exact ⟨compiled, a, _, _, _, hcompiled, hbuild, himports, hpublished _ List.mem_cons_self (by simp) rfl⟩

/-- A member that is named like the children is shown and published as what the component is given. -/
theorem children_state_shown_as_slot : (gauge "children").validate = .ok () ∧
    ∃ compiled, ∃ a : Assembled, ∃ m c' block imports,
      compile (formattedBy none) (gauge "children") = .ok compiled ∧
      build (formattedBy none) .empty (gauge "children") = .ok a ∧
      RendersView (formattedBy none) (gauge "children") a m c' block ∧
      a.parts.view = escapeTemplate (indentedView .v1 imports block.text) ∧
      block.text = "<p><slot></slot>\n</p>" ∧
      HasLine a.parts.sections "this.eventAggregator.publish(Family.key, $$slots.default);" := by
  have hx : IsName (ofString "children") := ⟨by decide, by decide⟩
  obtain ⟨compiled, hcompiled⟩ := exists_compile_of_plainNames (isPlain_formattedBy none)
    (gauge_isTyped "children") rfl fun domRefs hdomRefs f hf => notMem_of_isName (gauge_refs domRefs hdomRefs f hf).1
  obtain ⟨_, a, _, hbuild, _⟩ := compile_eq_ok rfl rfl hcompiled
  obtain ⟨m, c', block, hview⟩ := exists_rendersView hbuild
  obtain ⟨imports, himports⟩ := hview.view
  obtain ⟨rfl, hpieces⟩ := rendersView_gauge hx rfl hview
  refine ⟨rfl, compiled, a, m, _, block, imports, hcompiled, hbuild, hview, ?_, ?_, ?_⟩
  · exact (List.append_nil block.text) ▸ himports
  · rw [Block.text, hpieces]
    rfl
  · exact hasLine_of_state hbuild hx rfl List.mem_cons_self (by simp) rfl

end ElementCompiler.Module
