import ElementCompiler.Proofs.Component.InsertedState
import ElementCompiler.Proofs.Module.Compile
import ElementCompiler.Proofs.Module.StateMembers
import ElementCompiler.Proofs.Module.UnusedNames

set_option autoImplicit false

/-!
State that the code of a component does not use. With one more state entry under a name that no
snippet has among its words, the module is the same but for one more member in its state section, at
the place of the entry.
-/

namespace ElementCompiler

open Attempt Snippet Text

/-- The component with one more state entry between those before it and those after it. -/
def Component.withEntry (c : Component) (before after : Entries StateValue) (name : Text)
    (v : StateValue) : Component := { c with state := before ++ (name, v) :: after }

section Names

variable {c : Component} {before after : Entries StateValue} {name : Text} {v : StateValue}

theorem codeProps_insert {code : Text} (hreads : Component.propReads code = [])
    (xs ys : List (Option Json)) :
    Component.codeProps (xs ++ some (.str code) :: ys) = Component.codeProps (xs ++ ys) := by
  induction xs with
  | nil =>
    rw [List.nil_append, List.nil_append, Component.codeProps, Json.textOr_str, ok_bind, hreads]
    cases Component.codeProps ys <;> rfl
  | cons x xs ih =>
    cases x with
    | none => rfl
    | some j =>
      have hrest : ∀ zs, Component.codeProps (some j :: xs ++ zs) = do
          let text ← j.textOr .wrongKind
          return Component.propReads text ++ (← Component.codeProps (xs ++ zs)) := fun _ => rfl
      rw [hrest, hrest, ih]

theorem propNames_withEntry (name : Text) (hstate : c.state = before ++ after) {code : Text}
    (hcode : v.code = .str code) (hreads : Component.propReads code = []) :
    (c.withEntry before after name v).propNames = c.propNames := by
  have hsnippets : (c.withEntry before after name v).snippets =
      (c.nodes.flatMap Node.codes ++ (Component.stateCodes before).map some) ++ some (.str code) ::
        ((Component.stateCodes after ++ c.hooks.onInit.toList ++ c.hooks.onMount.toList ++
          c.hooks.onUnmount.toList ++ c.hooks.onUpdate.map UpdateHook.code ++
          (Entries.values c.refs).filterMap Component.initialValue? ++
          c.context.writes.flatMap Component.writeCodes).map some) := by
    simp [Component.withEntry, Component.snippets, Component.nodes, Component.stateCodes,
      Entries.values, hcode]
  have hbefore : c.snippets =
      (c.nodes.flatMap Node.codes ++ (Component.stateCodes before).map some) ++
        ((Component.stateCodes after ++ c.hooks.onInit.toList ++ c.hooks.onMount.toList ++
          c.hooks.onUnmount.toList ++ c.hooks.onUpdate.map UpdateHook.code ++
          (Entries.values c.refs).filterMap Component.initialValue? ++
          c.context.writes.flatMap Component.writeCodes).map some) := by
    simp [Component.snippets, Component.stateCodes, Entries.values, hstate]
  rw [Component.propNames, Component.propNames, hsnippets, codeProps_insert hreads, ← hbefore]
  rfl

theorem keys_insert (before after : Entries StateValue) (name : Text) (v : StateValue) :
    (Entries.keys (before ++ (name, v) :: after)).filter (· != name) =
      (Entries.keys (before ++ after)).filter (· != name) := by
  simp [Entries.keys]

theorem callableNames_withEntry (c : Component) (before after : Entries StateValue) (name : Text)
    (v : StateValue) : (c.withEntry before after name v).callableNames.filter (· != name) =
      (Entries.keys ((before ++ after).filter fun e => e.2.isCallable)).filter (· != name) := by
  rw [Component.callableNames, Component.withEntry, List.filter_append, List.filter_append,
    List.filter_cons]
  split
  next => exact keys_insert _ _ name v
  next => rfl

end Names

namespace Module

section Lowered

variable {o : CompileOptions} (ho : IsPlain o) {c : Component} {before after : Entries StateValue}
  (hstate : c.state = before ++ after) {name : Text} {v : StateValue} {m : Members}

/-- The members with the names of other state. -/
def Members.withState (m : Members) (state : Entries StateValue) : Members :=
  { m with stateVars := Entries.keys state }

include ho hstate in
theorem collect_withEntry (name : Text) {code : Text} (hcode : v.code = .str code)
    (hreads : Component.propReads code = []) (h : Members.collect o c = .ok m) :
    Members.collect o (c.withEntry before after name v) =
        .ok (m.withState (before ++ (name, v) :: after)) ∧
      m.withState c.state = m ∧ m.outputVars = [] := by
  obtain ⟨props, domRefs, hprops, hdomRefs, rfl⟩ := (collect_eq_ok ho).mp h
  have hsame := propNames_withEntry name hstate hcode hreads
  exact ⟨(collect_eq_ok ho).mpr ⟨props, domRefs, hsame.trans hprops, hdomRefs, rfl⟩, rfl, rfl⟩

theorem names_withState (m : Members) (before after : Entries StateValue) (name : Text)
    (v : StateValue) : (m.withState (before ++ (name, v) :: after)).names.filter (· != name) =
      (m.withState (before ++ after)).names.filter (· != name) := by
  simp only [Members.names, Members.withState, List.filter_append, keys_insert]

/-- The processor of members that differ in the name only does the same to code without the name. -/
theorem visit_processor (hname : IsSpare name) {m' : Members} {callables callables' : List Text}
    (houtputs : m'.outputVars = m.outputVars)
    (hmembers : m'.names.filter (· != name) = m.names.filter (· != name))
    (hcallables : callables'.filter (· != name) = callables.filter (· != name)) {c c' : Component}
    (hc : c.HasTexts) (hwithout : c.IsWithout name) (state : Entries StateValue)
    (h : (m.processor callables).steps.visit c = .ok c') :
    (m'.processor callables').steps.visit { c with state } = .ok { c' with state } := by
  obtain ⟨hooks, state₀, refs, children, hhooks, _, hrefs, hchildren, rfl⟩ := Visitor.visit_eq_ok.mp h
  have hkept : ∀ es : Entries StateValue, Visitor.mapEntries
      (fun _ => Visitor.visitState (m'.processor callables').steps) es = .ok es := by
    intro es
    exact Visitor.mapEntries_eq_ok.mpr (List.forall₂_same.mpr fun _ _ => ⟨rfl, rfl⟩)
  have hbinding : m'.bindingCode = m.bindingCode := by
    funext code
    rw [Members.bindingCode, Members.bindingCode, houtputs]
  have hsteps : (m'.processor callables').steps.binding = (m.processor callables).steps.binding :=
    congrArg (fun f _ => onBindingCode f) hbinding
  refine Visitor.visit_eq_ok.mpr ⟨hooks, state, refs, children, ?_, hkept state, hrefs, ?_, rfl⟩
  · rw [← hhooks]
    refine Visitor.visitHooks_congr rfl fun code hcode => ?_
    exact hookCode_unused hname hmembers hcallables (hc.hooks code hcode) (hwithout.hooks code hcode)
  · rw [← hchildren]
    exact Visitor.visitNodes_congr hsteps rfl c.children

include hstate in
/-- One more state entry is lowered where it stands, and everything else as it is without it. -/
theorem lowered_withEntry (hname : IsSpare name) (hc : c.HasTexts) (hwithout : c.IsWithout name)
    (hplain : ∀ f ∈ c.refFields m.domRefs, CodePoint.char '\\' ∉ f.1)
    (houtputs : m.outputVars = []) (hm : m.withState c.state = m) (hv : v.code.IsText)
    {c' : Component} (h : lowered .empty m c = .ok c') : LoweredWithout name c' ∧
      ∃ before' after' v', c'.state = before' ++ after' ∧ before'.length = before.length ∧
        v'.code.IsText ∧ lowered .empty (m.withState (before ++ (name, v) :: after))
          (c.withEntry before after name v) = .ok (c'.withEntry before' after' name v') := by
  obtain ⟨c₁, hrefs, hvisit⟩ := lowered_eq_ok.mp h
  have htexts := refSteps_keepsTexts.component (visited_of_mapRefs hc hrefs) hc
  have hwithout₁ := isWithout_mapRefs hname hc hplain hrefs hwithout
  have hlowered := loweredWithout_visit hname houtputs htexts hwithout₁ hvisit
  obtain ⟨before', after', v', hstate', hlength, hv', hrefs'⟩ :=
    mapRefs_insert hrefs hplain hstate name hv
  have hmembers := names_withState m before after name v
  rw [← hstate, hm] at hmembers
  have hcallables := callableNames_withEntry c₁ before' after' name v'
  rw [← hstate'] at hcallables
  have hkept : c'.state = c₁.state := by
    obtain ⟨_, _, _, _, _, hentries, _, _, rfl⟩ := Visitor.visit_eq_ok.mp hvisit
    have hsame : Visitor.mapEntries (fun _ => Visitor.visitState
        (m.processor c₁.callableNames).steps) c₁.state = .ok c₁.state :=
      Visitor.mapEntries_eq_ok.mpr (List.forall₂_same.mpr fun _ _ => ⟨rfl, rfl⟩)
    exact Except.ok.inj (hentries.symm.trans hsame)
  refine ⟨hlowered, before', after', v', hkept.trans hstate', hlength, hv', ?_⟩
  refine lowered_eq_ok.mpr ⟨c₁.withEntry before' after' name v', hrefs', ?_⟩
  have houtputs' : (m.withState (before ++ (name, v) :: after)).outputVars = m.outputVars := rfl
  exact visit_processor hname houtputs' hmembers hcallables htexts hwithout₁ _ hvisit

end Lowered

/-- The sections of a class with the members of its state in their place; an empty state section is
    left out. -/
def withStateSection (above below members : List Text) : List Text :=
  above ++ ([join "\n" members].filter fun s => !s.isEmpty) ++ below

section Sections

variable {c : Component} {p : SectionParts} {ss : List Text}

variable {before after : Entries StateValue} {name : Text} {v : StateValue} {m' : Members}

section Members

variable {m : Members} (hname : IsSpare name)
  (hmembers : m'.names.filter (· != name) = m.names.filter (· != name))

include hname hmembers

/-- One more state entry is one more member, at its place. -/
theorem stateMembers_insert (hbefore : ∀ s ∈ before, s.2.code.IsText ∧ s.2.code.IsWithout name)
    (hafter : ∀ s ∈ after, s.2.code.IsText ∧ s.2.code.IsWithout name) (hv : v.code.IsText) :
    ∃ earlier member later, earlier.length = before.length ∧
      stateMembers m.classCode " = " ";" (before ++ after) = .ok ((earlier ++ later).map .str) ∧
      stateMembers m'.classCode " = " ";" (before ++ (name, v) :: after) =
        .ok ((earlier ++ member :: later).map .str) := by
  have hmapper : ∀ m : Members, IsTextMapper m.classCode := fun m => isTextMapper_onGiven _
  obtain ⟨earlier, hearlier⟩ :=
    exists_stateMembers (hmapper m) (fun s hs => (hbefore s hs).1) " = " ";"
  obtain ⟨later, hlater⟩ := exists_stateMembers (hmapper m) (fun s hs => (hafter s hs).1) " = " ";"
  obtain ⟨member, hmember⟩ := exists_memberText (hmapper m') hv " = " ";" name
  have hsame : ∀ es : Entries StateValue, (∀ s ∈ es, s.2.code.IsText ∧ s.2.code.IsWithout name) →
      stateMembers m'.classCode " = " ";" es = stateMembers m.classCode " = " ";" es :=
    fun es hes => stateMembers_congr fun s hs =>
      classCode_unused hname hmembers (.inr (hes s hs).1) (hes s hs).2
  have hlength := (stateMembers_eq_ok.mp hearlier).length_eq
  rw [List.length_map] at hlength
  refine ⟨earlier, member, later, hlength.symm, ?_, ?_⟩
  · rw [List.map_append]
    exact stateMembers_eq_ok.mpr
      (List.rel_append (stateMembers_eq_ok.mp hearlier) (stateMembers_eq_ok.mp hlater))
  · rw [← hsame before hbefore] at hearlier
    rw [← hsame after hafter] at hlater
    rw [List.map_append, List.map_cons]
    exact stateMembers_eq_ok.mpr (List.rel_append (stateMembers_eq_ok.mp hearlier)
      (.cons hmember (stateMembers_eq_ok.mp hlater)))

theorem valueRefDeclaration_withEntry (hlowered : LoweredWithout name c) (ref : Text) :
    valueRefDeclaration (c.withEntry before after name v) m'.classCode ref =
      valueRefDeclaration c m.classCode ref := by
  change valueRefDeclaration c m'.classCode ref = valueRefDeclaration c m.classCode ref
  rw [valueRefDeclaration, valueRefDeclaration]
  split
  next => rfl
  next spec hspec =>
    obtain ⟨k, hk⟩ := Entries.mem_of_get? hspec
    obtain ⟨hargument, hwithout⟩ := hlowered.refs _ hk
    rw [classCode_unused hname hmembers hargument hwithout]

end Members

/-- With one more state entry a class has one more member in its state section. -/
theorem sections_withEntry (hname : IsSpare name) (hstate : c.state = before ++ after)
    (hlowered : LoweredWithout name c) (hv : v.code.IsText)
    (hmembers : m'.names.filter (· != name) = p.members.names.filter (· != name))
    (hdomRefs : m'.domRefs = p.members.domRefs) (h : sections c p = .ok ss) :
    ∃ above below earlier member later, earlier.length = before.length ∧
      ss = withStateSection above below (earlier ++ later) ∧
      sections (c.withEntry before after name v) { p with members := m' } =
        .ok (withStateSection above below (earlier ++ member :: later)) ∧
      stateMembers p.members.classCode " = " ";" c.state = .ok ((earlier ++ later).map .str) ∧
      stateMembers m'.classCode " = " ";" (before ++ (name, v) :: after) =
        .ok ((earlier ++ member :: later).map .str) := by
  obtain ⟨props, valueRefs, state, construct, attached, observer, detached, hprops, hvalueRefs,
    hmemberText, hconstruct, hattached, hobserver, hdetached, rfl⟩ := sections_eq_ok.mp h
  have hall := hlowered.state
  rw [hstate, List.forall_mem_append] at hall
  obtain ⟨earlier, member, later, hlength, hwritten, hinserted⟩ :=
    stateMembers_insert hname hmembers hall.1 hall.2 hv
  rw [← hstate] at hwritten
  obtain rfl := Except.ok.inj ((classMembers_texts hwritten).symm.trans hmemberText)
  have hdeclared : valueRefDeclaration (c.withEntry before after name v) m'.classCode =
      valueRefDeclaration c p.members.classCode :=
    funext (valueRefDeclaration_withEntry hname hmembers hlowered)
  refine ⟨_, _, earlier, member, later, hlength, rfl, ?_, hwritten, hinserted⟩
  refine sections_eq_ok.mpr ⟨props, valueRefs, _, construct, attached, observer, detached, hprops,
    hdeclared ▸ hvalueRefs, classMembers_texts hinserted, hconstruct, hattached, hobserver,
    hdetached, ?_⟩
  dsimp only
  rw [hdomRefs]
  rfl

end Sections

section Assembly

variable {o : CompileOptions} (ho : IsPlain o) {c : Component} {before after : Entries StateValue}
  {name : Text} {v : StateValue}

theorem viewBody_withEntry (hstate : c.state = before ++ after) (hlowered : LoweredWithout name c) :
    viewBody (c.withEntry before after name v) = viewBody c := by
  have hcallables := callableNames_withEntry c before after name v
  rw [← hstate] at hcallables
  have hplace : Markup.SamePlace name ⟨.templateRoot, [], c.callableNames⟩
      ⟨.templateRoot, [], (c.withEntry before after name v).callableNames⟩ := by
    refine ⟨rfl, rfl, fun n hn => ?_⟩
    have hmem := congrArg (n ∈ ·) hcallables
    simpa [hn, Component.callableNames] using hmem
  rw [viewBody, viewBody, Markup.renderChildren, Markup.renderChildren]
  change ((Markup.renderNodes _ c.children >>= _) >>= _) = ((Markup.renderNodes _ c.children >>= _) >>= _)
  rw [Markup.renderNodes_eq hplace c.children hlowered.nodes]
  rfl

include ho

theorem importChannel_withEntry :
    importChannel o (c.withEntry before after name v) = importChannel o c := by
  have hmapper : (importSettings o).mapper = some Import.structuredMapper := by
    rw [importSettings, ho.importMapper]
    rfl
  have hone : Import.resolveOne (importSettings o) (c.withEntry before after name v) =
      Import.resolveOne (importSettings o) c := by
    funext used d
    simp only [Import.resolveOne, hmapper]
    rfl
  have hresolve : Import.resolve (importSettings o) (c.withEntry before after name v) =
      Import.resolve (importSettings o) c := by
    funext used
    rw [Import.resolve, Import.resolve, hone]
    rfl
  rw [importChannel, importChannel, hresolve]
  rfl

/-- One more state entry is one more member of the module, and everything else stays. -/
theorem assemble_withEntry (hname : IsSpare name) (hstate : c.state = before ++ after)
    (hlowered : LoweredWithout name c) (hv : v.code.IsText) {m m' : Members}
    (hmembers : m'.names.filter (· != name) = m.names.filter (· != name))
    (hdomRefs : m'.domRefs = m.domRefs) (hprops : m'.props = m.props)
    {parameters outs valueRefs : List Text} {a : Assembled}
    (h : assemble o m parameters outs valueRefs c = .ok a) :
    ∃ above below earlier member later, earlier.length = before.length ∧
      a.parts.sections = withStateSection above below (earlier ++ later) ∧
      assemble o m' parameters outs valueRefs (c.withEntry before after name v) = .ok
        ⟨{ a.parts with sections := withStateSection above below (earlier ++ member :: later) },
          a.classification⟩ ∧
      stateMembers m.classCode " = " ";" c.state = .ok ((earlier ++ later).map .str) ∧
      stateMembers m'.classCode " = " ";" (before ++ (name, v) :: after) =
        .ok ((earlier ++ member :: later).map .str) := by
  obtain ⟨channel, extra, body, found, bridge, bindable, elementName, ss, hchannel, hextra, hbody,
    hfound, hbridge, hbindable, helement, hsections, rfl⟩ := assemble_eq_ok.mp h
  obtain ⟨above, below, earlier, member, later, hlength, rfl, hsections', hwritten, hinserted⟩ :=
    sections_withEntry (v := v) hname hstate hlowered hv hmembers hdomRefs hsections
  refine ⟨above, below, earlier, member, later, hlength, rfl, ?_, hwritten, hinserted⟩
  exact assemble_eq_ok.mpr ⟨channel, extra, body, found, bridge, bindable, elementName, _,
    (importChannel_withEntry ho).trans hchannel, hextra,
    (viewBody_withEntry hstate hlowered).trans hbody, hfound, hbridge, hprops ▸ hbindable, helement,
    hsections', rfl⟩

end Assembly

section Compilation

variable {o : CompileOptions} {c : Component}

/-- The members that the state of a component is written as, one for each entry. -/
def WritesState (o : CompileOptions) (c : Component) (members : List Text) : Prop :=
  ∃ m c', Members.collect o c = .ok m ∧ lowered .empty m c = .ok c' ∧
    stateMembers m.classCode " = " ";" c'.state = .ok (members.map .str)

def unformattedLog (o : CompileOptions) (name : Json) (found : Import.Classification) :
    List LogEvent := [
  .generating o.targetVersion name, .running 0 .preComponent, .running 1 .postComponent,
  .classified found.customElements.length found.codeImports.length found.classFields.length,
  .running 0 .preCode, .running 0 .postCode]

/-- Without a formatter and transforms a module is given as it is built. -/
theorem compile_unformatted (ho : IsPlain o) (hformat : o.format.isGiven = false)
    (hgiven : o.suppressed.isGiven = false) {compiled : Compiled} :
    compile o c = .ok compiled ↔ c.validate = .ok () ∧ ∃ a, build o .empty c = .ok a ∧
      (⟨a.parts.text, unformattedLog o c.name a.classification⟩ : Compiled) = compiled := by
  constructor
  · intro h
    rw [compile, hgiven, if_neg Bool.false_ne_true, generate] at h
    obtain ⟨_, hvalid, h⟩ := bind_eq_ok.mp h
    rw [pluginsOf, ho.plugins, ok_bind] at h
    obtain ⟨a, ha, h⟩ := bind_eq_ok.mp h
    rw [finish_unformatted hformat, ok_bind] at h
    exact ⟨hvalid, a, ha, Except.ok.inj h⟩
  · rintro ⟨hvalid, a, ha, rfl⟩
    rw [compile, hgiven, if_neg Bool.false_ne_true, generate, hvalid, ok_bind, pluginsOf, ho.plugins,
      ok_bind, ha, ok_bind, finish_unformatted hformat, ok_bind]
    rfl

/-- A state entry that no code uses is one more member of the class at its place, and changes nothing
    else in the module. -/
theorem unused_state_is_local (ho : IsPlain o) (hformat : o.format.isGiven = false)
    (hgiven : o.suppressed.isGiven = false) (hc : c.HasTexts)
    (hplain : ∀ domRefs, c.domRefs = .ok domRefs →
      ∀ f ∈ c.refFields domRefs, CodePoint.char '\\' ∉ f.1)
    {before after : Entries StateValue} (hstate : c.state = before ++ after) {name : Text}
    (hname : IsSpare name) (hwithout : c.IsWithout name) {v : StateValue} {code : Text}
    (hcode : v.code = .str code) (hreads : Component.propReads code = []) :
    (∀ compiled, compile o c = .ok compiled → ∃ (parts : ModuleParts)
      (above below earlier : List Text) (member : Text) (later : List Text),
      earlier.length = before.length ∧
      compiled.text = ModuleParts.text
        { parts with sections := withStateSection above below (earlier ++ later) } ∧
      compile o (c.withEntry before after name v) = .ok ⟨ModuleParts.text
        { parts with sections := withStateSection above below (earlier ++ member :: later) },
        compiled.log⟩ ∧
      WritesState o c (earlier ++ later) ∧
      WritesState o (c.withEntry before after name v) (earlier ++ member :: later)) ∧
    (c.IsTyped → c.validate = .ok () → ∃ compiled, compile o c = .ok compiled) := by
  refine ⟨fun compiled hcompiled => ?_, fun htyped hvalid =>
    exists_compile_of_plainNames ho htyped hvalid hplain⟩
  obtain ⟨hvalid, a, hbuild, rfl⟩ := (compile_unformatted ho hformat hgiven).mp hcompiled
  obtain ⟨m, experimental, parameters, outs, c', hcollect, hexperimental, hparameters, houts,
    hlower, hassemble⟩ := build_eq_ok.mp hbuild
  obtain rfl := Except.ok.inj ((experimentalOf_eq ho).symm.trans hexperimental)
  obtain ⟨hcollect', hm, houtputs⟩ := collect_withEntry ho hstate name hcode hreads hcollect
  obtain ⟨_, domRefs, _, hdomRefs, hmembers⟩ := (collect_eq_ok ho).mp hcollect
  have hfields := hplain m.domRefs (by rw [hmembers]; exact hdomRefs)
  obtain ⟨hwithout', before', after', v', hstate', hlength, hv', hlower'⟩ :=
    lowered_withEntry hstate hname hc hwithout hfields houtputs hm ⟨code, hcode⟩ hlower
  have hnames := names_withState m before after name v
  rw [← hstate, hm] at hnames
  obtain ⟨above, below, earlier, member, later, hearlier, hsections, hassemble', hwritten, hinserted⟩ :=
    assemble_withEntry ho hname hstate' hwithout' hv' hnames rfl rfl hassemble
  have hbuild' := build_eq_ok.mpr ⟨_, _, parameters, outs, _, hcollect', experimentalOf_eq ho,
    hparameters, houts, hlower', hassemble'⟩
  refine ⟨a.parts, above, below, earlier, member, later, hearlier.trans hlength, ?_,
    (compile_unformatted ho hformat hgiven).mpr ⟨hvalid, _, hbuild', rfl⟩,
    ⟨m, c', hcollect, hlower, hwritten⟩, ⟨_, _, hcollect', hlower', hinserted⟩⟩
  rw [← hsections]

end Compilation

theorem isPlain_unformatted : IsPlain unformatted := ⟨rfl, rfl, rfl⟩

/-- A button that counts how often it is pressed, and a timer. -/
def counter : Component where
  name := .str "Counter"
  children := [⟨.str "button", [],
    [("onClick", some (.ofCode (.str "increase") .normal)), ("ref", some (.ofCode (.str "box") .normal))],
    [], .empty, none, []⟩]
  state := [("count", ⟨.str "0", .data⟩), ("increase", ⟨.str "increase() { count += 1 }", .method⟩)]
  props := []
  propsTypeRef := .null
  defaultProps := []
  refs := [("timer", ⟨.str "count", .null⟩)]
  hooks := ⟨none, some (.str "timer.current = increase()"), [], none⟩
  context := ⟨[], []⟩
  imports := []
  exports := []
  metadata := []
  types := []
  css := .null

theorem counter_isTyped : counter.IsTyped where
  code := {
    hooks := List.forall_mem_singleton.mpr ⟨_, rfl⟩
    deps := by rintro _ ⟨⟩
    state := List.forall_mem_cons.mpr ⟨⟨_, rfl⟩, List.forall_mem_singleton.mpr ⟨_, rfl⟩⟩
    refs := List.forall_mem_singleton.mpr (.inr ⟨_, rfl⟩)
    nodes := List.forall_mem_singleton.mpr ⟨⟨_, rfl⟩, by rintro _ ⟨⟩, List.forall_mem_cons.mpr
      ⟨⟨_, rfl, ⟨_, rfl⟩, .inr ⟨_, rfl⟩, .inl rfl⟩,
        List.forall_mem_singleton.mpr ⟨_, rfl, ⟨_, rfl⟩, .inr ⟨_, rfl⟩, .inl rfl⟩⟩⟩ }
  writes := by rintro _ ⟨⟩
  props := by rintro _ ⟨⟩
  propsType := .inl rfl
  refs := List.forall_mem_singleton.mpr (by decide)
  channel := ⟨by rintro _ ⟨⟩, by rintro _ ⟨⟩⟩
  aurelia := by rintro _ ⟨⟩

theorem counter_isWithout : counter.IsWithout "label" where
  hooks := List.forall_mem_singleton.mpr (Json.isWithout_str (by decide))
  state := List.forall_mem_cons.mpr ⟨Json.isWithout_str (by decide),
    List.forall_mem_singleton.mpr (Json.isWithout_str (by decide))⟩
  refs := List.forall_mem_singleton.mpr (Json.isWithout_str (by decide))
  bindings := by
    refine List.forall_mem_singleton.mpr (List.forall_mem_cons.mpr
      ⟨?_, List.forall_mem_singleton.mpr ?_⟩)
    all_goals
      rintro _ ⟨⟩
      exact Json.isWithout_str (by decide)

theorem isSpare_label : IsSpare "label" :=
  ⟨⟨by decide, by decide⟩, by decide, rfl, ne_repeated (by decide) (by decide)⟩

/-- A label goes between the two members of the counter. -/
theorem unused_state_is_local_counter : ∃ (compiled : Compiled) (parts : ModuleParts)
    (above below earlier : List Text) (member : Text) (later : List Text),
    compile unformatted counter = .ok compiled ∧ earlier.length = 1 ∧
      compiled.text = ModuleParts.text
        { parts with sections := withStateSection above below (earlier ++ later) } ∧
      compile unformatted (counter.withEntry (counter.state.take 1) (counter.state.drop 1) "label"
        ⟨.str "''", .data⟩) = .ok ⟨ModuleParts.text
          { parts with sections := withStateSection above below (earlier ++ member :: later) },
          compiled.log⟩ := by
  have hplain : ∀ domRefs, counter.domRefs = .ok domRefs →
      ∀ f ∈ counter.refFields domRefs, CodePoint.char '\\' ∉ f.1 := by
    intro domRefs hdomRefs
    have hbox : counter.domRefs = .ok ["box"] := rfl
    obtain rfl := Except.ok.inj (hbox.symm.trans hdomRefs)
    decide
  have hstate : counter.state = counter.state.take 1 ++ counter.state.drop 1 := rfl
  have hcode : StateValue.code ⟨.str "''", .data⟩ = .str "''" := rfl
  obtain ⟨hlocal, hcompiles⟩ := unused_state_is_local isPlain_unformatted rfl rfl
    counter_isTyped.code hplain hstate isSpare_label counter_isWithout hcode rfl
  obtain ⟨compiled, hcompiled⟩ := hcompiles counter_isTyped rfl
  obtain ⟨parts, above, below, earlier, member, later, hlength, htext, hinserted, _⟩ :=
    hlocal compiled hcompiled
  exact ⟨compiled, parts, above, below, earlier, member, later, hcompiled, hlength, htext, hinserted⟩

/-- A component that runs the code when it is mounted, beside a ref whose name is, as a template, the
    escape for a letter. -/
def mounted (code : Text) (state : Entries StateValue) : Component where
  name := .str "Form"
  children := [⟨.str "p", [], [], [], .empty, none, []⟩]
  state := state
  props := []
  propsTypeRef := .null
  defaultProps := []
  refs := [("\\172", ⟨.null, .null⟩)]
  hooks := ⟨none, some (.str code), [], none⟩
  context := ⟨[], []⟩
  imports := []
  exports := []
  metadata := []
  types := []
  css := .null

def letterState : Entries StateValue := [("z", ⟨.str "1", .data⟩)]

theorem relocateRefs_letter {code dropped : Text} (hgiven : (Json.str code).isGiven = true)
    (hdropped : dropCurrent "\\172" (.str code) = .ok dropped)
    (hkept : replaceOne (instanceLead ++ "_\\172") "\\172" dropped = dropped) :
    relocateRefs [("\\172", "_\\172")] instanceLead (.str code) = .ok (.str dropped) := by
  rw [relocateRefs, if_pos hgiven]
  change (relocateRef instanceLead "\\172" "_\\172" _ >>= _) = _
  rw [relocateRef, hdropped, ok_bind, if_neg (by decide), hkept]
  rfl

theorem classCode_bare :
    Members.classCode ⟨[], [], [], [], []⟩ (.str "z = 1") = .ok (.str "z = 1") := by
  have hstripped : strip (.before instanceLead) "z = 1" = "z = 1" := by
    rw [strip, mapPlain_of_noQuote (by decide) (by decide)]
    decide
  change Except.ok (Json.str (strip _ "z = 1")) = _
  rw [hstripped]

theorem classCode_led :
    Members.classCode ⟨[], ["z"], [], [], []⟩ (.str "z = 1") = .ok (.str "this.z = 1") := by
  have hled : replaceOne (instanceLead ++ "z") "z" "z = 1" = "this.z = 1" := by
    rw [replaceOne, mapPlain_of_noQuote (by decide) (by decide)]
    decide
  have hstripped : strip (.before instanceLead) "this.z = 1" = "this.z = 1" := by
    rw [strip, mapPlain_of_noQuote (by decide) (by decide)]
    decide
  change Except.ok (Json.str (strip _ (replaceOne _ _ "z = 1"))) = _
  rw [hled, hstripped]

theorem classCode_one : Members.classCode ⟨[], ["z"], [], [], []⟩ (.str "1") = .ok (.str "1") := by
  have hkept : replaceOne (instanceLead ++ "z") "z" "1" = "1" := by
    rw [replaceOne, mapPlain_of_noQuote (by decide) (by decide)]
    decide
  have hstripped : strip (.before instanceLead) "1" = "1" := by
    rw [strip, mapPlain_of_noQuote (by decide) (by decide)]
    decide
  change Except.ok (Json.str (strip _ (replaceOne _ _ "1"))) = _
  rw [hkept, hstripped]

theorem lowered_mounted {stateVars : List Text} {state : Entries StateValue} {code : Text}
    (hstate : state = [] ∨ state = letterState)
    (hcode : Members.classCode ⟨[], stateVars, [], [], []⟩ (.str "z = 1") = .ok (.str code)) :
    lowered .empty ⟨[], stateVars, [], [], []⟩ (mounted "\\172.current = 1" state) =
      .ok (mounted code state) := by
  have hhook : Members.hookCode ⟨[], stateVars, [], [], []⟩ [] (.str "z = 1") = .ok (.str code) := by
    rw [Members.hookCode, hcode]
    rfl
  have hcurrent : relocateRefs [("\\172", "_\\172")] instanceLead (.str "\\172.current = 1") =
      .ok (.str "z = 1") := by
    refine relocateRefs_letter rfl rfl ?_
    rw [replaceOne, mapPlain_of_noQuote (by decide) (by decide)]
    decide
  have hone : relocateRefs [("\\172", "_\\172")] instanceLead (.str "1") = .ok (.str "1") := by
    refine relocateRefs_letter rfl rfl ?_
    rw [replaceOne, mapPlain_of_noQuote (by decide) (by decide)]
    decide
  refine lowered_eq_ok.mpr ⟨mounted "z = 1" state, ?_, ?_⟩
  · have hfields : (mounted "\\172.current = 1" state).refFields [] ≠ [] := List.cons_ne_nil _ _
    rw [mapRefs_toAttempt _ hfields]
    change Visitor.visit (refSteps [("\\172", "_\\172")] instanceLead) _ = _
    rcases hstate with rfl | rfl
    all_goals
      simp only [mounted, letterState, Visitor.visit, Visitor.visitHooks, Visitor.mapOption,
        Visitor.visitUpdates, Visitor.mapEntries, Visitor.visitState, refSteps,
        hcurrent, hone]
      rfl
  · rcases hstate with rfl | rfl
    all_goals
      change Visitor.visit (CodeProcessor.steps (Members.processor _ [])) _ = _
      simp only [mounted, Visitor.visit, Visitor.visitHooks, Visitor.mapOption, Visitor.visitUpdates,
        CodeProcessor.steps, Members.processor, hhook]
      rfl

theorem isWithout_mounted : (mounted "\\172.current = 1" []).IsWithout "z" where
  hooks := List.forall_mem_singleton.mpr (Json.isWithout_str (by decide))
  state := by rintro _ ⟨⟩
  refs := List.forall_mem_singleton.mpr (by rintro _ ⟨⟩)
  bindings := List.forall_mem_singleton.mpr (by rintro _ ⟨⟩)

theorem sections_bare : sections (mounted "z = 1" [])
    ⟨⟨[], [], [], [], []⟩, [], [], [], ["\\172"], [], ⟨[], []⟩⟩ =
      .ok ["private _\\172;", "attached() \x7b\n  z = 1\n\x7d"] := by
  rfl

theorem sections_led : sections (mounted "this.z = 1" letterState)
    ⟨⟨[], ["z"], [], [], []⟩, [], [], [], ["\\172"], [], ⟨[], []⟩⟩ =
      .ok ["private _\\172;", "z = 1;", "attached() \x7b\n  this.z = 1\n\x7d"] := by
  have hmember : stateMember (Members.classCode ⟨[], ["z"], [], [], []⟩) " = " ";" "z"
      ⟨.str "1", .data⟩ = .ok (.str "z = 1;") := by
    rw [stateMember, classCode_one]
    rfl
  have hstate : classMembers (Members.classCode ⟨[], ["z"], [], [], []⟩) letterState =
      .ok "z = 1;" := by
    rw [classMembers, letterState, stateMembers_eq_ok.mpr (.cons hmember .nil), ok_bind]
    rfl
  exact sections_eq_ok.mpr ⟨[], [ofString "private _\\172;"], "z = 1;", [],
    "attached() \x7b\n  this.z = 1\n\x7d", [], [], rfl, rfl, hstate, rfl, rfl, rfl, rfl, rfl⟩

theorem exists_build_mounted {stateVars : List Text} {state : Entries StateValue} {code : Text}
    {ss : List Text} (hcollect : Members.collect unformatted (mounted "\\172.current = 1" state) =
      .ok ⟨[], stateVars, [], [], []⟩)
    (hlowered : lowered .empty ⟨[], stateVars, [], [], []⟩ (mounted "\\172.current = 1" state) =
      .ok (mounted code state))
    (hsections : sections (mounted code state)
      ⟨⟨[], stateVars, [], [], []⟩, [], [], [], ["\\172"], [], ⟨[], []⟩⟩ = .ok ss) :
    ∃ a, build unformatted .empty (mounted "\\172.current = 1" state) = .ok a ∧
      a.parts.sections = ss := by
  obtain ⟨channel, extra, body, found, name, hchannel, hextra, hbody, hspreads, hfound, hfields,
      hname⟩ : ∃ channel extra body found name,
      importChannel unformatted (mounted code state) = .ok channel ∧
      (mounted code state).customImports = .ok extra ∧ viewBody (mounted code state) = .ok body ∧
      body.spreads = [] ∧ Import.classify channel.records body.text
        ((extra ++ (mounted code state).localExportNames).map .text) = .ok found ∧
      found.classFields = [] ∧ elementName (mounted code state) = .ok name :=
    ⟨_, _, _, _, _, rfl, rfl, rfl, rfl, rfl, rfl, rfl⟩
  have hbindable : bindableProps [] body.spreads = .ok [] := by
    rw [hspreads]
    rfl
  rw [← hfields] at hsections
  have hassemble := assemble_eq_ok.mpr ⟨channel, extra, body, found, ⟨[], []⟩, [], name, ss, hchannel,
    hextra, hbody, hfound, rfl, hbindable, hname, hsections, rfl⟩
  exact ⟨_, build_eq_ok.mpr ⟨_, _, [], [], _, hcollect, rfl, rfl, rfl, hlowered, hassemble⟩, rfl⟩

/-- The relocation of the ref writes the letter that its name is an escape for, and the hook then
    reaches the state of that name, which it did not use. -/
theorem escaped_ref_reached :
    (mounted "\\172.current = 1" []).validate = .ok () ∧ IsSpare "z" ∧
      (mounted "\\172.current = 1" []).IsWithout "z" ∧ Component.propReads "1" = [] ∧
      (∃ a, build unformatted .empty (mounted "\\172.current = 1" []) = .ok a ∧
        a.parts.sections =
          (["private _\\172;", "attached() \x7b\n  z = 1\n\x7d"] : List Text)) ∧
      ∃ a, build unformatted .empty (mounted "\\172.current = 1" letterState) = .ok a ∧
        a.parts.sections =
          (["private _\\172;", "z = 1;", "attached() \x7b\n  this.z = 1\n\x7d"] : List Text) := by
  have hname : IsSpare "z" :=
    ⟨⟨by decide, by decide⟩, by decide, rfl, ne_repeated (by decide) (by decide)⟩
  have hbare := lowered_mounted (.inl rfl) classCode_bare
  have hled := lowered_mounted (.inr rfl) classCode_led
  exact ⟨rfl, hname, isWithout_mounted, rfl, exists_build_mounted rfl hbare sections_bare,
    exists_build_mounted rfl hled sections_led⟩

end Module
end ElementCompiler
