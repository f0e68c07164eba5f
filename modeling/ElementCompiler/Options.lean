import ElementCompiler.Formatting
import ElementCompiler.Import.Resolution

set_option autoImplicit false

/-!
Compile options and overriding them. An override that is named takes the place of the value it
names; what is not named stays. A value of the wrong shape for a group of options is kept and
refused where the group is used.
-/

namespace ElementCompiler

/-- Overrides for the shapes of injected parameters and of outputs. -/
structure ExperimentalOptions where
  injectables : Option ((name : Text) → (typeName : Json) → Attempt Text)
  inject : Json
  outputs : Option (Component → (name : Text) → Attempt Text)

/-- The options of a compilation. A group of options is missing when the value given for it is no
    group. -/
structure CompileOptions where
  targetVersion : TargetVersion
  preserveImports : Json
  preserveFileExtensions : Json
  importMapper : Option Import.Mapper
  experimental : Option ExperimentalOptions
  plugins : Option PluginSet
  format : Json
  formatter : Option Formatter
  suppressed : Json

def CompileOptions.default : CompileOptions where
  targetVersion := .v1
  preserveImports := .bool true
  preserveFileExtensions := .bool false
  importMapper := none
  experimental := some ⟨none, .bool false, none⟩
  plugins := some .empty
  format := .bool true
  formatter := none
  suppressed := .bool false

/-- Overrides of the experimental options; `unknown` are the names that are no option. -/
structure ExperimentalOverrides where
  unknown : List Text
  injectables : Option (Option ((name : Text) → (typeName : Json) → Attempt Text))
  inject : Option Json
  outputs : Option (Option (Component → (name : Text) → Attempt Text))

/-- Transforms by stage, or null for none; a stage that is not named has none either. -/
structure PluginOverrides where
  unknown : List Text
  preComponent : Option (Option (List ComponentTransform))
  postComponent : Option (Option (List ComponentTransform))
  preCode : Option (Option (List CodeTransform))
  postCode : Option (Option (List CodeTransform))

/-- Overrides of compile options. A group is given as overrides of its own, and a whole group as overrides
    of all its members; anything else is a value that is no group. -/
structure Overrides where
  unknown : List Text
  targetVersion : Option Json
  preserveImports : Option Json
  preserveFileExtensions : Option Json
  importMapper : Option (Option Import.Mapper)
  experimental : Option (Option ExperimentalOverrides)
  plugins : Option (Option PluginOverrides)
  format : Option Json
  formatter : Option (Option Formatter)
  suppressed : Option Json

def Overrides.none : Overrides :=
  ⟨[], .none, .none, .none, .none, .none, .none, .none, .none, .none⟩

def checkNames (group : OptionGroup) (unknown : List Text) : Attempt Unit :=
  if unknown.isEmpty then .ok ()
  else .error (.unknownOptions group (unknown.mergeSort Text.atMost))

def mergeExperimental (base : Option ExperimentalOptions) :
    Option (Option ExperimentalOverrides) → Attempt (Option ExperimentalOptions)
  | none => .ok base
  | some none => .ok none
  | some (some o) => do
    checkNames .experimental o.unknown
    match base with
    | none => .error .wrongKind
    | some b => return some {
        injectables := o.injectables.getD b.injectables
        inject := o.inject.getD b.inject
        outputs := o.outputs.getD b.outputs }

def mergePlugins (base : Option PluginSet) :
    Option (Option PluginOverrides) → Attempt (Option PluginSet)
  | none => .ok base
  | some none => .ok none
  | some (some o) => do
    checkNames .pluginStage o.unknown
    return some {
      preComponent := (o.preComponent.getD none).getD []
      postComponent := (o.postComponent.getD none).getD []
      preCode := (o.preCode.getD none).getD []
      postCode := (o.postCode.getD none).getD [] }

/-- The options with the overrides in place. -/
def CompileOptions.merge (base : CompileOptions) (o : Overrides) : Attempt CompileOptions := do
  checkNames .compile o.unknown
  let targetVersion ← match o.targetVersion with
    | some value => TargetVersion.parse value
    | none => pure base.targetVersion
  let experimental ← mergeExperimental base.experimental o.experimental
  let plugins ← mergePlugins base.plugins o.plugins
  return {
    targetVersion, experimental, plugins
    preserveImports := o.preserveImports.getD base.preserveImports
    preserveFileExtensions := o.preserveFileExtensions.getD base.preserveFileExtensions
    importMapper := o.importMapper.getD base.importMapper
    format := o.format.getD base.format
    formatter := o.formatter.getD base.formatter
    suppressed := o.suppressed.getD base.suppressed }

end ElementCompiler
