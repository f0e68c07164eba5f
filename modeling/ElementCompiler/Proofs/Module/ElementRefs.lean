import ElementCompiler.Proofs.Module.ClassSnippets
import ElementCompiler.Proofs.Module.LoweredNodes
import ElementCompiler.Proofs.Module.Props
import ElementCompiler.Proofs.Snippet.Handlers
import ElementCompiler.Proofs.Snippet.UnusedName

set_option autoImplicit false

/-!
The refs of elements in the view and in the class. The view has what becomes of the code of a ref
binding, the class has a field for the code itself; they agree where the code stays as it is.
-/

namespace ElementCompiler

open Attempt Snippet Text

namespace Markup

section Refs

variable {n : Node} {place : Place} {key x : Text} {b : Binding} {p : Piece}

theorem append_ne_ref (s : Text) {ending : Text} (h : 3 < ending.length) : s ++ ending ≠ "ref" := by
  intro hsame
  have hlength := congrArg List.length hsame
  rw [List.length_append] at hlength
  have href : (ofString "ref").length = 3 := rfl
  omega

/-- The attribute for a ref is emitted by its rule alone. -/
theorem EmitsAttribute.of_ref (h : EmitsAttribute n place key b (.of "ref" x)) :
    key = "ref" ∧ b.mode ≠ .spread ∧ ∃ code, b.code = .str code ∧ x = trim code := by
  generalize ha : Attribute.of "ref" x = a at h
  have hending : ∀ (s : Text) {ending value : Text}, 3 < ending.length →
      Attribute.of "ref" x ≠ .of (s ++ ending) value := fun s ending value hlength hsame =>
    append_ne_ref s hlength (Attribute.mk.inj hsame).1.symm
  cases h with
  | spread => exact absurd ha (hending _ (by decide))
  | event => exact absurd ha (hending _ (by decide))
  | classes => exact absurd (Attribute.mk.inj ha).1 (by decide)
  | ref hrule hcode =>
    obtain ⟨hkey, hmode⟩ := rule_ref hrule
    exact ⟨hkey, hmode, _, hcode, Option.some.inj (Attribute.mk.inj ha).2⟩
  | mapped => exact absurd ha (hending _ (by decide))
  | checked => exact absurd ha (hending _ (by decide))
  | index => exact absurd ha (hending _ (by decide))
  | plain => exact absurd ha (hending _ (by decide))

theorem emitAll_ref {e : Emitted} (h : emitAll n place = .ok e) (hx : .of "ref" x ∈ e.attributes) :
    ∃ b code, (ofString "ref", some b) ∈ n.bindings ∧ b.mode ≠ .spread ∧ b.code = .str code ∧
      x = trim code := by
  obtain ⟨es, hes, hattributes, _⟩ := emitAll_emits h
  rw [hattributes] at hx
  obtain ⟨e, he, hx⟩ := List.mem_flatMap.mp hx
  obtain ⟨⟨key, bound⟩, hmem, b, rfl, hemits⟩ := exists_left hes e he
  obtain ⟨rfl, hmode, code, hcode, rfl⟩ := (hemits.attributes _ hx).of_ref
  exact ⟨b, code, hmem, hmode, hcode, rfl⟩

/-- A tag has the attribute for a ref by a property of its node or by the ref that its node binds. -/
theorem OpensTag.of_ref (h : OpensTag n p) (hx : .of "ref" x ∈ p.attributes) :
    (∃ j, (ofString "ref", j) ∈ n.properties ∧ x = j.display) ∨
      ∃ b code, (ofString "ref", some b) ∈ n.bindings ∧ b.mode ≠ .spread ∧ b.code = .str code ∧
        x = trim code := by
  have hproperty : .of "ref" x ∈ propertyAttributes n →
      ∃ j, (ofString "ref", j) ∈ n.properties ∧ x = j.display := by
    intro hx
    obtain ⟨⟨key, j⟩, hmem, hsame⟩ := List.mem_map.mp hx
    obtain ⟨rfl, hvalue⟩ := Attribute.mk.inj hsame
    exact ⟨j, List.mem_of_mem_filter hmem, (Option.some.inj hvalue).symm⟩
  have hname : ∀ {name value : Text}, name ≠ "ref" → Attribute.of "ref" x ≠ .of name value :=
    fun hne hsame => hne (Attribute.mk.inj hsame).1.symm
  cases h with
  | element _ _ _ hemitted | void _ _ _ hemitted =>
    exact (List.mem_append.mp hx).imp hproperty (emitAll_ref hemitted)
  | slot _ hattributes =>
    rcases slotAttributes_eq_ok hattributes with rfl | ⟨value, rfl⟩
    · cases hx
    · exact absurd (List.mem_singleton.mp hx) (hname (by decide))
  | placeholder => cases hx
  | projection => exact absurd (List.mem_singleton.mp hx) (hname (by decide))
  | loop => exact absurd (List.mem_singleton.mp hx) (hname (by decide))
  | condition => exact absurd (List.mem_singleton.mp hx) (hname (by decide))
  | otherwise => exact absurd (List.mem_singleton.mp hx) (by simp [Attribute.of])

end Refs
end Markup

namespace Snippet

section Kept

variable {code : Text} {outputs : List Text}

theorem relocate_unusedAll (lead : Text) (h : ∀ name ∈ outputs, IsName name ∧ name ∉ words code) :
    relocate lead outputs code = code := by
  induction outputs with
  | nil => rfl
  | cons name names ih =>
    obtain ⟨⟨hname, hunused⟩, hrest⟩ := List.forall_mem_cons.mp h
    have hempty : name.isEmpty = false := by simpa using hname.1
    have hstep := ih hrest
    rw [relocate, replaceNames] at hstep ⊢
    rw [List.foldl_cons, hempty, if_neg Bool.false_ne_true, replaceOne_unused hname _ hunused]
    exact hstep

theorem padded_trim (code : Text) : Padded (trim code) code := .of_trim ⟨[], [], by simp, by simp⟩

/-- A code that is a name, perhaps with blanks around it, and none of the outputs. -/
structure NamesElement (outputs : List Text) (code : Text) : Prop where
  isName : IsName (trim code)
  outputs : ∀ name ∈ outputs, IsName name ∧ name ≠ trim code

/-- The code is shown in the view as it is. -/
theorem NamesElement.bindingCode_eq {m : Module.Members} (h : NamesElement m.outputVars code) :
    m.bindingCode (.str code) = .ok (.str code) := by
  have hquote : CodePoint.char '"' ∉ code := (padded_trim code).notMem h.isName (by rfl) (by rfl)
  have hpoint : CodePoint.char '.' ∉ code := (padded_trim code).notMem h.isName (by rfl) (by rfl)
  have hencoded : Markup.encodeQuotes code = code := replaceFrom_eq_self hquote
  have hunused : ∀ name ∈ m.outputVars.eraseDups, IsName name ∧ name ∉ words code := by
    intro name hname
    obtain ⟨hisName, hne⟩ := h.outputs name (List.mem_eraseDups.mp hname)
    rw [(padded_trim code).words_eq h.isName, List.mem_singleton]
    exact ⟨hisName, hne⟩
  have hrelocated : relocateMembers m.outputVars Module.instanceLead (.before "") code = code := by
    rw [relocateMembers, relocate_unusedAll _ hunused, strip_of_noPoint _ hpoint]
  rw [Module.Members.bindingCode, onGiven, hrelocated, ite_self]
  change Except.ok (Json.str (Markup.encodeQuotes code)) = _
  rw [hencoded]

end Kept
end Snippet

/-- The node binds a ref by the code. -/
def Node.BindsRef (n : Node) (code : Text) : Prop :=
  ∃ b, n.binding? "ref" = some b ∧ b.mode ≠ .spread ∧ b.code = .str code

theorem Component.mem_refNames {ns : List Node} {names : List Text} (h : refNames ns = .ok names)
    {n : Node} (hn : n ∈ ns) {code : Text} (hcode : n.BindsRef code) (hne : trim code ≠ []) :
    trim code ∈ names := by
  induction ns generalizing names with
  | nil => cases hn
  | cons n' ns ih =>
    rw [refNames] at h
    rcases List.mem_cons.mp hn with rfl | hn
    · obtain ⟨b, hb, _, hcode⟩ := hcode
      rw [hb] at h
      obtain ⟨s, hs, h⟩ := bind_eq_ok.mp h
      obtain ⟨others, _, h⟩ := bind_eq_ok.mp h
      rw [hcode] at hs
      obtain rfl := Except.ok.inj hs
      rw [if_neg (by simpa using hne)] at h
      obtain rfl := Except.ok.inj h
      exact List.mem_cons_self
    · split at h
      next => exact ih h hn
      next =>
        obtain ⟨s, _, h⟩ := bind_eq_ok.mp h
        obtain ⟨others, hothers, h⟩ := bind_eq_ok.mp h
        obtain rfl := Except.ok.inj h
        split
        next => exact ih hothers hn
        next => exact List.mem_cons_of_mem _ (ih hothers hn)

namespace Module

/-- What the view and the class make of a ref that is bound by the code: the view shows the code with
    its members in place, the class has a field for the code itself. For a name they are the same. -/
structure ShowsRef (m : Members) (ss : List Text) (code x : Text) : Prop where
  shown : ∃ t, m.bindingCode (.str code) = .ok (.str t) ∧ x = trim t
  field : trim code ≠ [] → HasLine ss (trim code ++ ": HTMLElement;")
  declared : NamesElement m.outputVars code → HasLine ss (x ++ ": HTMLElement;")

section Agreement

variable {o : CompileOptions} {c c' : Component} {a : Assembled} {m : Members} {block : Markup.Block}

/-- A tag of the view has the attribute for a ref by a property of its node, or by a ref that its node
    binds and the class has a field for. -/
theorem RendersView.showsRef (h : RendersView o c a m c' block) (hc : c.HasTexts)
    (hkeys : ∀ n ∈ c.nodes, (Entries.keys n.bindings).Nodup) {p : Markup.Piece} (hp : p ∈ block.pieces)
    {x : Text} (hx : .of "ref" x ∈ p.attributes) : ∃ n ∈ c.nodes,
      (∃ j, (ofString "ref", j) ∈ n.properties ∧ x = j.display) ∨
        ∃ code, n.BindsRef code ∧ ShowsRef m a.parts.sections code x := by
  obtain ⟨n, hn, n', hnode, hopens⟩ :=
    h.exists_opensTag hc hp (Markup.Piece.isTag_of_mem_attributes hx)
  refine ⟨n, hn, ?_⟩
  rcases hopens.of_ref hx with hproperty | ⟨b', t, hmem, hmode, hcode, rfl⟩
  · rw [hnode.properties] at hproperty
    exact .inl hproperty
  · obtain ⟨⟨key, b⟩, hb, hkey, hlowered⟩ := exists_left hnode.bindings _ hmem
    obtain rfl : ofString "ref" = key := hkey
    obtain ⟨b, code, code', rfl, hfirst, hsecond, hb'⟩ := loweredBinding_eq_ok hlowered
    obtain rfl := Option.some.inj hb'
    obtain rfl : b.code = code := Except.ok.inj hfirst
    obtain rfl : code' = .str t := hcode
    have hbound : n.binding? "ref" = some b := by
      rw [Node.binding?, Entries.get?_of_mem (hkeys n hn) hb]
      rfl
    obtain ⟨s, hs⟩ := ((hc.nodes n hn).binding? hbound).code
    have hbinds : n.BindsRef s := ⟨b, hbound, hmode, hs⟩
    rw [hs] at hsecond
    have hfield : trim s ≠ [] → HasLine a.parts.sections (trim s ++ ": HTMLElement;") := by
      intro hne
      obtain ⟨p, rfl, hsections⟩ := h.sections
      obtain ⟨_, _, hdomRefs⟩ := collect_names h.collect
      obtain ⟨names, hnames, hdups⟩ := bind_eq_ok.mp hdomRefs
      refine (hasFields_of_sections hsections).elements _ ?_
      rw [← Except.ok.inj hdups]
      exact List.mem_eraseDups.mpr (Component.mem_refNames hnames hn hbinds hne)
    refine .inr ⟨s, hbinds, ⟨t, hsecond, rfl⟩, hfield, fun hname => ?_⟩
    obtain rfl := Json.str.inj (Except.ok.inj (hname.bindingCode_eq.symm.trans hsecond))
    exact hfield hname.isName.1

/-- The view and the class agree on the refs of elements whose code is a name. A valid component is
    compiled when its refs have plain names. -/
theorem element_refs_agree (hplugins : o.plugins = some .empty) (hgiven : o.suppressed.isGiven = false)
    (hc : c.HasTexts) (hkeys : ∀ n ∈ c.nodes, (Entries.keys n.bindings).Nodup) :
    (∀ compiled, compile o c = .ok compiled → ∃ a log m c' block, build o .empty c = .ok a ∧
      finish o .empty a.parts.text = .ok (compiled.text, log) ∧ RendersView o c a m c' block ∧
      ∀ p ∈ block.pieces, ∀ x, .of "ref" x ∈ p.attributes → ∃ n ∈ c.nodes,
        (∃ j, (ofString "ref", j) ∈ n.properties ∧ x = j.display) ∨
          ∃ code, n.BindsRef code ∧ ShowsRef m a.parts.sections code x) ∧
    (IsPlain o → c.IsTyped → c.validate = .ok () → (∀ domRefs, c.domRefs = .ok domRefs →
      ∀ f ∈ c.refFields domRefs, CodePoint.char '\\' ∉ f.1) → ∃ compiled, compile o c = .ok compiled) := by
  refine ⟨fun compiled hcompiled => ?_, fun ho htyped hvalid hplain =>
    exists_compile_of_plainNames ho htyped hvalid hplain⟩
  obtain ⟨_, a, log, hbuild, hfinish⟩ := compile_eq_ok hplugins hgiven hcompiled
  obtain ⟨m, c', block, hview⟩ := exists_rendersView hbuild
  exact ⟨a, log, m, c', block, hbuild, hfinish, hview, fun p hp x hx => hview.showsRef hc hkeys hp hx⟩

end Agreement

/-- A component with an element that is bound to a ref, once its raw code has become the code. -/
def dialog (raw code : Text) : Component where
  name := .str "Dialog"
  children := [⟨.str "p", [], [("ref", some ⟨.str code, .str raw, .normal, .null⟩)], [], .empty, none, []⟩]
  state := []
  props := []
  propsTypeRef := .null
  defaultProps := []
  refs := []
  hooks := ⟨none, none, [], none⟩
  context := ⟨[], []⟩
  imports := []
  exports := []
  metadata := []
  types := []
  css := .null

section Dialog

variable {raw code : Text}

theorem dialog_isTyped : (dialog raw code).IsTyped := by
  refine Component.IsBare.isTyped ⟨rfl, rfl, rfl, rfl, rfl⟩ (List.forall_mem_singleton.mpr ?_)
    (List.forall_mem_nil _) (List.forall_mem_nil _) (Component.resolvesTexts_of_none rfl rfl)
  exact ⟨⟨_, rfl⟩, List.forall_mem_nil _,
    List.forall_mem_singleton.mpr ⟨_, rfl, ⟨_, rfl⟩, .inr ⟨_, rfl⟩, .inl rfl⟩⟩

theorem dialog_plain (hdomRefs : (dialog raw code).domRefs = .ok [code])
    (hcode : CodePoint.char '\\' ∉ code) : ∀ domRefs, (dialog raw code).domRefs = .ok domRefs →
      ∀ f ∈ (dialog raw code).refFields domRefs, CodePoint.char '\\' ∉ f.1 := by
  intro domRefs hfound f hf
  obtain rfl := Except.ok.inj (hdomRefs.symm.trans hfound)
  rcases mem_refFields hf with ⟨hname, _⟩ | ⟨hname, _⟩
  · rwa [List.mem_singleton.mp hname]
  · cases hname

/-- Lowering leaves the ref where it is, and changes its code like that of any binding. -/
theorem lowered_dialog {t : Text} {m : Members} (hm : m.domRefs = [code])
    (hcode : m.bindingCode (.str code) = .ok (.str t)) :
    lowered .empty m (dialog raw code) = .ok (dialog raw t) := by
  refine lowered_eq_ok.mpr ⟨dialog raw code, ?_, ?_⟩
  · rw [mapRefs_toAttempt _ (by rw [hm]; exact List.cons_ne_nil _ _)]
    rfl
  · simp only [dialog, Visitor.visit, Visitor.visitNodes, Visitor.visitNode, Visitor.visitBranch,
      Visitor.mapEntries, CodeProcessor.steps, Members.processor, onBindingCode, hcode]
    rfl

/-- The tag that the element of the component opens. -/
def dialogTag (code : Text) : Markup.Piece := .opening "p" [.of "ref" code]

theorem rendersView_dialog {a : Assembled}  {m : Members} {c' : Component} {block : Markup.Block}
    {t : Text} (h : RendersView (formattedBy none) (dialog raw code) a m c' block)
    (hcode : m.bindingCode (.str code) = .ok (.str t)) (ht : trim t = t)
    (hm : m.domRefs = [code]) : dialogTag t ∈ block.pieces := by
  obtain rfl := Except.ok.inj ((lowered_dialog hm hcode).symm.trans h.lowered)
  have hrendered : Markup.renderChildren ⟨.templateRoot, [], (dialog raw t).callableNames⟩ "\n  "
      (dialog raw t).children = .ok ⟨[.opening "p" [.of "ref" (trim t)], .raw "\n", .closing "p"], []⟩ := rfl
  obtain rfl := Except.ok.inj (hrendered.symm.trans h.rendered)
  rw [ht]
  exact List.mem_cons_self

end Dialog

theorem element_refs_agree_dialog : ∃ compiled a,
    compile (formattedBy none) (dialog "panel" "panel") = .ok compiled ∧
    build (formattedBy none) .empty (dialog "panel" "panel") = .ok a ∧
    HasLine a.parts.sections "panel: HTMLElement;" := by
  obtain ⟨hagree, hcompiles⟩ := element_refs_agree (o := formattedBy none) (c := dialog "panel" "panel")
    rfl rfl dialog_isTyped.code (List.forall_mem_singleton.mpr (by decide))
  obtain ⟨compiled, hcompiled⟩ := hcompiles (isPlain_formattedBy none) dialog_isTyped rfl
    (dialog_plain rfl (by decide))
  obtain ⟨a, _, m, c', block, hbuild, _, hview, hrefs⟩ := hagree compiled hcompiled
  have hmembers : Members.collect (formattedBy none) (dialog "panel" "panel") =
      .ok ⟨[], [], [], ["panel"], []⟩ := rfl
  obtain rfl := Except.ok.inj (hmembers.symm.trans hview.collect)
  have hname : NamesElement [] "panel" := ⟨⟨by decide, by decide⟩, by rintro _ ⟨⟩⟩
  have htag := rendersView_dialog hview hname.bindingCode_eq (by decide) rfl
  obtain ⟨n, hn, hshown⟩ := hrefs _ htag "panel" List.mem_cons_self
  obtain rfl := List.mem_singleton.mp hn
  rcases hshown with ⟨_, hproperty, _⟩ | ⟨code, ⟨b, hb, _, hcode⟩, hshows⟩
  · cases hproperty
  · have hbound : Node.binding? ⟨.str "p", [], [("ref", some ⟨.str "panel", .str "panel", .normal, .null⟩)], [],
        .empty, none, []⟩ "ref" = some ⟨.str "panel", .str "panel", .normal, .null⟩ := rfl
    obtain rfl := Option.some.inj (hbound.symm.trans hb)
    obtain rfl := Json.str.inj hcode
    exact ⟨compiled, a, hcompiled, hbuild, hshows.declared hname⟩

/-- A section of a single line has that line alone. -/
theorem eq_of_hasLine {text line : Text} (h : HasLine [text] line) (htext : CodePoint.char '\n' ∉ text) :
    line = text := by
  obtain ⟨before, after, hmem⟩ := h
  obtain rfl := List.mem_singleton.mp hmem
  rw [join_append_cons] at htext ⊢
  cases before with
  | cons first before => exact absurd (by simp [unlines]) htext
  | nil =>
    cases after with
    | cons next after => exact absurd (by simp [join_cons_cons, ofString]) htext
    | nil => rfl

/-- A ref that is written as a member is shown by its name, and the class has a field for what was
    written. -/
theorem member_ref_not_declared : (dialog "state.panel" "state.panel").validate = .ok () ∧
    (∃ compiled, compile (formattedBy none) (dialog "state.panel" "state.panel") = .ok compiled) ∧
    ∃ a m c' block, build (formattedBy none) .empty (dialog "state.panel" "state.panel") = .ok a ∧
      RendersView (formattedBy none) (dialog "state.panel" "state.panel") a m c' block ∧
      dialogTag "panel" ∈ block.pieces ∧ a.parts.sections = ["state.panel: HTMLElement;"] ∧
      ¬ HasLine a.parts.sections "panel: HTMLElement;" := by
  have hcode : Members.bindingCode ⟨[], [], [], ["state.panel"], []⟩ (.str "state.panel") =
      .ok (.str "panel") :=
    bindingCode_member rfl List.mem_cons_self "panel" ⟨by decide, by decide⟩ rfl
  have hbuild : ∃ a, build (formattedBy none) .empty (dialog "state.panel" "state.panel") = .ok a ∧
      a.parts.sections = ["state.panel: HTMLElement;"] := by
    refine ⟨_, build_eq_ok.mpr ⟨⟨[], [], [], ["state.panel"], []⟩, _, [], [], dialog "state.panel" "panel",
      rfl, rfl, rfl, rfl, lowered_dialog rfl hcode, assemble_eq_ok.mpr ⟨⟨[], []⟩, [],
        ⟨"<p ref=\"panel\">\n</p>", []⟩, ⟨[], [], []⟩, _, [], _, _, rfl, rfl, rfl, rfl, rfl, rfl, rfl, ?_,
        rfl⟩⟩, rfl⟩
    exact sections_eq_ok.mpr ⟨[], [], [], [], [], [], [], rfl, rfl, rfl, rfl, rfl, rfl, rfl, rfl⟩
  obtain ⟨a, hbuild, hsections⟩ := hbuild
  obtain ⟨m, c', block, hview⟩ := exists_rendersView hbuild
  have hmembers : Members.collect (formattedBy none) (dialog "state.panel" "state.panel") =
      .ok ⟨[], [], [], ["state.panel"], []⟩ := rfl
  obtain rfl := Except.ok.inj (hmembers.symm.trans hview.collect)
  have htag := rendersView_dialog hview hcode (by decide) rfl
  refine ⟨rfl, exists_compile_of_plainNames (isPlain_formattedBy none) dialog_isTyped rfl
    (dialog_plain rfl (by decide)), a, _, c', block, hbuild, hview, htag, hsections, fun hline => ?_⟩
  rw [hsections] at hline
  exact absurd (eq_of_hasLine hline (by decide)) (by decide)

end Module
end ElementCompiler
