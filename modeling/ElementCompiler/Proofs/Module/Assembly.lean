import ElementCompiler.Module.Compile
import ElementCompiler.Proofs.Attempt

set_option autoImplicit false

/-!
A compilation taken apart: what each of its steps gave when all of them went through.
-/

namespace ElementCompiler.Module

open Attempt

variable {o : CompileOptions} {c : Component}

/-- A compilation that gave a module checked the component, built the module, and finished its
    text. -/
theorem compile_eq_ok {plugins : PluginSet} (hplugins : o.plugins = some plugins)
    (hgiven : o.suppressed.isGiven = false) {compiled : Compiled}
    (h : compile o c = .ok compiled) : c.validate = .ok () ∧
      ∃ a log, build o plugins c = .ok a ∧ finish o plugins a.parts.text = .ok (compiled.text, log) := by
  rw [compile, hgiven] at h
  change generate o c = .ok compiled at h
  rw [generate] at h
  obtain ⟨⟨⟩, hvalid, h⟩ := bind_eq_ok.mp h
  refine ⟨hvalid, ?_⟩
  obtain ⟨found, hfound, h⟩ := bind_eq_ok.mp h
  rw [pluginsOf, hplugins] at hfound
  obtain rfl := Except.ok.inj hfound
  obtain ⟨a, ha, h⟩ := bind_eq_ok.mp h
  obtain ⟨⟨text, log⟩, hfinish, h⟩ := bind_eq_ok.mp h
  obtain rfl := Except.ok.inj h
  exact ⟨a, log, ha, hfinish⟩

/-- Without plugins and the formatter a module is given as it is built. -/
theorem finish_unformatted (hformat : o.format.isGiven = false) (text : Text) :
    finish o .empty text = .ok (text, [.running 0 .preCode, .running 0 .postCode]) := by
  rw [finish, hformat]
  rfl

/-- The default options but for the formatter. -/
def unformatted : CompileOptions := { CompileOptions.default with format := .bool false }

theorem build_eq_ok {a : Assembled} : build o .empty c = .ok a ↔
    ∃ m experimental parameters outs c', Members.collect o c = .ok m ∧
      experimentalOf o = .ok experimental ∧ injectables experimental c = .ok parameters ∧
      outputs experimental c m = .ok outs ∧ lowered .empty m c = .ok c' ∧
      assemble o m parameters outs (c.valueRefs m.domRefs) c' = .ok a := by
  rw [build]
  change (Members.collect o c >>= _) = .ok a ↔ _
  simp only [bind_eq_ok, exists_and_left]

/-- The parts of a module, from what the steps of its assembly gave. -/
def moduleParts (o : CompileOptions) (c : Component) (channel : Import.Channel) (body : ViewBody)
    (found : Import.Classification) (bridge : ContextBridge) (bindable : List Text) (name : Json)
    (sections : List Text) : ModuleParts where
  importsAggregator := bridge.hasWrites
  runtimeFeatures := runtimeFeatures c bridge bindable
  codeImports := Import.codeStatements body.text channel.entries
  localExports := channel.localExports
  types := c.types
  defaultProps := c.defaultProps.map fun d => d.1 ++ ": " ++ d.2.display
  autoinject := bridge.hasWrites
  elementName := name.display
  view := assembleView o.targetVersion
    (Import.templateImports o.targetVersion.importKeyword found.customElements) body.text
  name := c.name.display
  sections := sections

theorem assemble_eq_ok {m : Members} {parameters outs valueRefs : List Text} {a : Assembled} :
    assemble o m parameters outs valueRefs c = .ok a ↔
      ∃ channel extra body found bridge bindable name ss, importChannel o c = .ok channel ∧
        c.customImports = .ok extra ∧ viewBody c = .ok body ∧
        Import.classify channel.records body.text ((extra ++ c.localExportNames).map .text) =
          .ok found ∧
        ContextBridge.build c.context publishedCode = .ok bridge ∧
        bindableProps m.props body.spreads = .ok bindable ∧ elementName c = .ok name ∧
        sections c ⟨m, bindable, found.classFields, outs, valueRefs, parameters, bridge⟩ = .ok ss ∧
        (⟨moduleParts o c channel body found bridge bindable name ss, found⟩ : Assembled) = a := by
  rw [assemble]
  simp only [bind_eq_ok, exists_and_left, pure, Except.pure, Except.ok.injEq]
  rfl

/-- What a module was built from: the parts of its class, the component as it was lowered for their
    members, and the body of its view. -/
structure BuildsModule (o : CompileOptions) (c : Component) (a : Assembled)
    (experimental : ExperimentalOptions) (c' : Component) (body : ViewBody) (p : SectionParts) : Prop where
  options : experimentalOf o = .ok experimental
  collect : Members.collect o c = .ok p.members
  outputs : outputs experimental c p.members = .ok p.outputs
  valueRefs : p.valueRefs = c.valueRefs p.members.domRefs
  lowered : lowered .empty p.members c = .ok c'
  shown : viewBody c' = .ok body
  imports : ∃ channel extra found, importChannel o c' = .ok channel ∧ c'.customImports = .ok extra ∧
    Import.classify channel.records body.text ((extra ++ c'.localExportNames).map .text) = .ok found ∧
    p.assignedImports = found.classFields
  bindable : bindableProps p.members.props body.spreads = .ok p.bindableProps
  sections : sections c' p = .ok a.parts.sections
  view : ∃ tags, a.parts.view = assembleView o.targetVersion tags body.text

theorem exists_buildsModule {a : Assembled} (h : build o .empty c = .ok a) :
    ∃ experimental c' body p, BuildsModule o c a experimental c' body p := by
  obtain ⟨m, experimental, parameters, outs, c', hcollect, hexperimental, _, houts, hlowered, hassemble⟩ :=
    build_eq_ok.mp h
  obtain ⟨channel, extra, body, found, bridge, bindable, _, ss, hchannel, hextra, hbody, hfound, _,
    hbindable, _, hsections, rfl⟩ := assemble_eq_ok.mp hassemble
  exact ⟨experimental, c', body, _, hexperimental, hcollect, houts, rfl, hlowered, hbody,
    ⟨channel, extra, found, hchannel, hextra, hfound, rfl⟩, hbindable, hsections, _, rfl⟩

end ElementCompiler.Module
