import ElementCompiler.Component.Refs
import ElementCompiler.Component.Validation
import ElementCompiler.Import.Classification
import ElementCompiler.Module.Layout
import ElementCompiler.Module.Sections

set_option autoImplicit false

/-!
Compiling a component to a module: check it, run the plugins on it, relocate its refs and its code,
resolve its imports against the rendered view, lay out the module, and run the plugins and the
formatter on the text.
-/

namespace ElementCompiler.Module

open Text

structure Compiled where
  text : Text
  log : List LogEvent

/-- The constructor parameters by which contexts are injected. -/
def injectable (experimental : ExperimentalOptions) (name : Text) (typeName : Json) :
    Attempt Text :=
  match experimental.injectables with
  | some f => f name typeName
  | none =>
    let parameter : Text := "public " ++ name ++ ": " ++ typeName.display
    .ok (if experimental.inject.isGiven then
      "@Inject(forwardRef(() => " ++ typeName.display ++ ")) " ++ parameter else parameter)

def injectables (experimental : ExperimentalOptions) (c : Component) : Attempt (List Text) :=
  c.context.reads.mapM fun r => injectable experimental r.1 r.2.name

def outputs (experimental : ExperimentalOptions) (c : Component) (m : Members) :
    Attempt (List Text) :=
  match experimental.outputs with
  | some f => m.outputVars.mapM (f c)
  | none => .ok []

/-- The name of the element: that of the metadata, else the name of the component in kebab case. -/
def elementName (c : Component) : Attempt Json := do
  let aurelia := ((Entries.get? c.metadata (.text "aurelia")).getD .null).orElse (.obj [])
  let given ← aurelia.field "element_name"
  if given.isGiven then return given
  else return .str (kebab (← c.name.textOr .wrongKind))

/-- Props and spread sources that become fields: not slots, not the children. -/
def bindableProps (props : List Json) (spreads : List Text) : Attempt (List Text) := do
  let names ← props.mapM (Json.textOr .wrongKind)
  return (names ++ spreads).eraseDups.filter fun p => !Markup.isSlotKey p && p != childrenProp

/-- The decorators that a module imports, in the order of their names. -/
def runtimeFeatures (c : Component) (bridge : ContextBridge) (bindable : List Text) :
    List Text :=
  let writing : List Text := if bridge.hasWrites then ["autoinject"] else []
  let bound : List Text := if bindable.isEmpty then [] else ["bindable"]
  let observing : List Text := if c.hooks.onUpdate.isEmpty then [] else ["computedFrom"]
  let always : List Text := ["customElement", "inlineView"]
  writing ++ bound ++ observing ++ always

/-- The component after its refs are relocated, the transforms have run, and its code is
    processed. -/
def lowered (plugins : PluginSet) (m : Members) (c : Component) : Attempt Component := do
  let c ← (c.mapRefs m.domRefs instanceLead).toAttempt
  let processor := m.processor c.callableNames
  let c ← plugins.runComponent .postComponent c
  (c.processCode processor).toAttempt

def importSettings (o : CompileOptions) : Import.Settings where
  mapper := some (o.importMapper.getD Import.structuredMapper)
  keepComponentImports := o.preserveImports.isGiven
  keepExtensions := o.preserveFileExtensions.isGiven

def importChannel (o : CompileOptions) (c : Component) : Attempt Import.Channel := do
  let used ← c.componentsUsed
  Import.Channel.parse (← Import.resolve (importSettings o) c used)

/-- What a module shows, and what its imports were found to be. -/
structure Assembled where
  parts : ModuleParts
  classification : Import.Classification

/-- The module of a lowered component. The members, parameters, outputs and value refs are those of
    the component before it was lowered. -/
def assemble (o : CompileOptions) (m : Members) (injectables outputs valueRefs : List Text)
    (c : Component) : Attempt Assembled := do
  let channel ← importChannel o c
  let extra := (← c.customImports) ++ c.localExportNames
  let body ← viewBody c
  let classification ← Import.classify channel.records body.text (extra.map .text)
  let version := o.targetVersion
  let tags := Import.templateImports version.importKeyword classification.customElements
  let bridge ← ContextBridge.build c.context publishedCode
  let bindable ← bindableProps m.props body.spreads
  let name ← elementName c
  let sections ← sections c {
    members := m, bindableProps := bindable, assignedImports := classification.classFields
    outputs, valueRefs, injectables, bridge }
  let parts : ModuleParts := {
    importsAggregator := bridge.hasWrites
    runtimeFeatures := runtimeFeatures c bridge bindable
    codeImports := Import.codeStatements body.text channel.entries
    localExports := channel.localExports
    types := c.types
    defaultProps := c.defaultProps.map fun d => d.1 ++ ": " ++ d.2.display
    autoinject := bridge.hasWrites
    elementName := name.display
    view := assembleView version tags body.text
    name := c.name.display
    sections }
  return ⟨parts, classification⟩

/-- The module of a component that was checked, before anything is done to its text. -/
def build (o : CompileOptions) (plugins : PluginSet) (source : Component) : Attempt Assembled := do
  let c ← plugins.runComponent .preComponent source
  let members ← Members.collect o c
  let experimental ← experimentalOf o
  let injectables ← injectables experimental c
  let outputs ← outputs experimental c members
  let valueRefs := c.valueRefs members.domRefs
  let c ← lowered plugins members c
  assemble o members injectables outputs valueRefs c

/-- The text after the transforms on code and the formatter. -/
def finish (o : CompileOptions) (plugins : PluginSet) (text : Text) :
    Attempt (Text × List LogEvent) := do
  let text ← plugins.runCode .preCode text
  let (text, warnings) :=
    if o.format.isGiven then tryFormat o.formatter text typescriptParser else (text, [])
  let text ← plugins.runCode .postCode text
  return (text, [.running (plugins.count .preCode) .preCode] ++ warnings ++
    [.running (plugins.count .postCode) .postCode])

def generate (o : CompileOptions) (source : Component) : Attempt Compiled := do
  source.validate
  let plugins ← pluginsOf o
  let assembled ← build o plugins source
  let (text, log) ← finish o plugins assembled.parts.text
  let found := assembled.classification
  return ⟨text, [
    .generating o.targetVersion source.name,
    .running (plugins.count .preComponent) .preComponent,
    .running (plugins.count .postComponent + 1) .postComponent,
    .classified found.customElements.length found.codeImports.length found.classFields.length] ++
    log⟩

/-- The module of a component; a suppressed compilation gives none. -/
def compile (o : CompileOptions) (source : Component) : Attempt Compiled :=
  if o.suppressed.isGiven then .ok ⟨"", [.suppressed source.name]⟩ else generate o source

end ElementCompiler.Module
