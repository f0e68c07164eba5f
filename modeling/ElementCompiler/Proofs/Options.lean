import ElementCompiler.Options
import ElementCompiler.Proofs.Attempt

set_option autoImplicit false

/-!
Overriding compile options, name by name. What is named takes the value that is given for it and what
is not named stays, except for the stages of plugins: overrides of plugins leave nothing at a stage
that they do not name.
-/

namespace ElementCompiler

open Attempt

section Names

/-- The options with a value of their own, those of the experimental group among them. -/
inductive Setting where
  | targetVersion
  | preserveImports
  | preserveFileExtensions
  | importMapper
  | format
  | formatter
  | suppressed
  | injectables
  | inject
  | outputs
  deriving DecidableEq, Repr

def Setting.Value : Setting → Type
  | .targetVersion => TargetVersion
  | .importMapper => Option Import.Mapper
  | .formatter => Option Formatter
  | .injectables => Option (Text → Json → Attempt Text)
  | .outputs => Option (Component → Text → Attempt Text)
  | .preserveImports | .preserveFileExtensions | .format | .suppressed | .inject => Json

def Stage.Transform : Stage → Type
  | .preComponent | .postComponent => ComponentTransform
  | .preCode | .postCode => CodeTransform

/-- The value of an option, unless it belongs to a group that is missing. -/
def CompileOptions.value? (o : CompileOptions) : (x : Setting) → Option x.Value
  | .targetVersion => some o.targetVersion
  | .preserveImports => some o.preserveImports
  | .preserveFileExtensions => some o.preserveFileExtensions
  | .importMapper => some o.importMapper
  | .format => some o.format
  | .formatter => some o.formatter
  | .suppressed => some o.suppressed
  | .injectables => o.experimental.map (·.injectables)
  | .inject => o.experimental.map (·.inject)
  | .outputs => o.experimental.map (·.outputs)

def CompileOptions.transforms? (o : CompileOptions) : (stage : Stage) → Option (List stage.Transform)
  | .preComponent => o.plugins.map (·.preComponent)
  | .postComponent => o.plugins.map (·.postComponent)
  | .preCode => o.plugins.map (·.preCode)
  | .postCode => o.plugins.map (·.postCode)

/-- What is given for a member of a group, if anything is: a value that is no group leaves nothing of
    its members. -/
def givenFor {names α : Type} (given : Option (Option names)) (member : names → Option α) :
    Option (Option α) :=
  given.bind fun o =>
    match o with
    | none => some none
    | some o => (member o).map some

/-- The value that is given for an option, if it is named. -/
def Overrides.value? (o : Overrides) : (x : Setting) → Option (Option x.Value)
  | .targetVersion => o.targetVersion.map fun value => (TargetVersion.parse value).toOption
  | .preserveImports => o.preserveImports.map some
  | .preserveFileExtensions => o.preserveFileExtensions.map some
  | .importMapper => o.importMapper.map some
  | .format => o.format.map some
  | .formatter => o.formatter.map some
  | .suppressed => o.suppressed.map some
  | .injectables => givenFor o.experimental (·.injectables)
  | .inject => givenFor o.experimental (·.inject)
  | .outputs => givenFor o.experimental (·.outputs)

/-- The transforms that are given for a stage, if it is named; null is none. -/
def Overrides.transforms? (o : Overrides) : (stage : Stage) → Option (Option (List stage.Transform))
  | .preComponent => givenFor o.plugins fun p => p.preComponent.map (·.getD [])
  | .postComponent => givenFor o.plugins fun p => p.postComponent.map (·.getD [])
  | .preCode => givenFor o.plugins fun p => p.preCode.map (·.getD [])
  | .postCode => givenFor o.plugins fun p => p.postCode.map (·.getD [])

/-- Overrides of plugins are among the overrides. -/
def Overrides.NamesStages (o : Overrides) : Prop := ∃ p, o.plugins = some (some p)

/-- Some name, at one of the three levels, is no option. -/
def Overrides.NamesUnknown (o : Overrides) : Prop :=
  o.unknown ≠ [] ∨ (∃ e, o.experimental = some (some e) ∧ e.unknown ≠ []) ∨
    ∃ p, o.plugins = some (some p) ∧ p.unknown ≠ []

/-- Transforms are given for no stage. -/
def Overrides.GivesNoTransforms (o : Overrides) : Prop :=
  ∀ stage ts, o.transforms? stage = some ts → ts = some []

/-- Two groups of overrides that are both given give names. -/
def BothByName {names : Type} (given other : Option (Option names)) : Prop :=
  given = none ∨ other = none ∨ (∃ o, given = some (some o)) ∧ ∃ o, other = some (some o)

/-- No option and no stage is named by both. -/
structure Apart (o o' : Overrides) : Prop where
  value : ∀ x, o.value? x = none ∨ o'.value? x = none
  transforms : ∀ stage, o.transforms? stage = none ∨ o'.transforms? stage = none
  experimental : BothByName o.experimental o'.experimental
  plugins : BothByName o.plugins o'.plugins

end Names

section Extensionality

variable {a b : CompileOptions}

theorem experimental_eq (h : ∀ x, a.value? x = b.value? x) : a.experimental = b.experimental := by
  have hinjectables : a.experimental.map (·.injectables) = b.experimental.map (·.injectables) := h .injectables
  have hinject : a.experimental.map (·.inject) = b.experimental.map (·.inject) := h .inject
  have houtputs : a.experimental.map (·.outputs) = b.experimental.map (·.outputs) := h .outputs
  match ha : a.experimental, hb : b.experimental with
  | none, none => rfl
  | none, some _ => simp [ha, hb] at hinject
  | some _, none => simp [ha, hb] at hinject
  | some ⟨_, _, _⟩, some ⟨_, _, _⟩ => simp_all

theorem plugins_eq (h : ∀ stage, a.transforms? stage = b.transforms? stage) : a.plugins = b.plugins := by
  have hpre : a.plugins.map (·.preComponent) = b.plugins.map (·.preComponent) := h .preComponent
  have hpost : a.plugins.map (·.postComponent) = b.plugins.map (·.postComponent) := h .postComponent
  have hpreCode : a.plugins.map (·.preCode) = b.plugins.map (·.preCode) := h .preCode
  have hpostCode : a.plugins.map (·.postCode) = b.plugins.map (·.postCode) := h .postCode
  match ha : a.plugins, hb : b.plugins with
  | none, none => rfl
  | none, some _ => simp [ha, hb] at hpre
  | some _, none => simp [ha, hb] at hpre
  | some ⟨_, _, _, _⟩, some ⟨_, _, _, _⟩ => simp_all

/-- Options that agree name by name are the same. -/
theorem CompileOptions.ext {a b : CompileOptions} (hvalue : ∀ x, a.value? x = b.value? x)
    (htransforms : ∀ stage, a.transforms? stage = b.transforms? stage) : a = b := by
  have hexperimental := experimental_eq hvalue
  have hplugins := plugins_eq htransforms
  have hversion := Option.some.inj (hvalue .targetVersion)
  have himports := Option.some.inj (hvalue .preserveImports)
  have hextensions := Option.some.inj (hvalue .preserveFileExtensions)
  have hmapper := Option.some.inj (hvalue .importMapper)
  have hformat := Option.some.inj (hvalue .format)
  have hformatter := Option.some.inj (hvalue .formatter)
  have hsuppressed := Option.some.inj (hvalue .suppressed)
  cases a
  cases b
  simp_all

end Extensionality

section Merging

variable {base r : CompileOptions} {o : Overrides}

theorem checkNames_eq_ok {group : OptionGroup} {unknown : List Text} :
    checkNames group unknown = .ok () ↔ unknown = [] := by
  rw [checkNames]
  split
  next h => exact ⟨fun _ => List.isEmpty_iff.mp h, fun _ => rfl⟩
  next h => exact ⟨nofun, fun hnil => absurd (List.isEmpty_iff.mpr hnil) h⟩

/-- The experimental options with overrides by name in place. -/
def ExperimentalOptions.overridden (b : ExperimentalOptions) (e : ExperimentalOverrides) : ExperimentalOptions where
  injectables := e.injectables.getD b.injectables
  inject := e.inject.getD b.inject
  outputs := e.outputs.getD b.outputs

theorem mergeExperimental_named {b : Option ExperimentalOptions} {e : ExperimentalOverrides}
    {x : Option ExperimentalOptions} : mergeExperimental b (some (some e)) = .ok x ↔
      e.unknown = [] ∧ ∃ group, b = some group ∧ x = some (group.overridden e) := by
  unfold mergeExperimental
  dsimp only
  rw [bind_eq_ok]
  constructor
  · rintro ⟨_, hnames, h⟩
    refine ⟨checkNames_eq_ok.mp hnames, ?_⟩
    split at h
    next => cases h
    next group => exact ⟨group, rfl, (Except.ok.inj h).symm⟩
  · rintro ⟨hnames, group, rfl, rfl⟩
    exact ⟨(), checkNames_eq_ok.mpr hnames, rfl⟩

/-- The plugins that overrides by name leave. -/
def PluginOverrides.alone (p : PluginOverrides) : PluginSet where
  preComponent := (p.preComponent.getD none).getD []
  postComponent := (p.postComponent.getD none).getD []
  preCode := (p.preCode.getD none).getD []
  postCode := (p.postCode.getD none).getD []

theorem mergePlugins_named {b : Option PluginSet} {p : PluginOverrides} {x : Option PluginSet} :
    mergePlugins b (some (some p)) = .ok x ↔ p.unknown = [] ∧ x = some p.alone := by
  rw [mergePlugins, bind_eq_ok]
  constructor
  · rintro ⟨_, hnames, h⟩
    exact ⟨checkNames_eq_ok.mp hnames, (Except.ok.inj h).symm⟩
  · rintro ⟨hnames, rfl⟩
    exact ⟨(), checkNames_eq_ok.mpr hnames, rfl⟩

/-- The version to compile for, with the override in place. -/
def mergeVersion (base : CompileOptions) (o : Overrides) : Attempt TargetVersion :=
  match o.targetVersion with
  | some value => TargetVersion.parse value
  | none => .ok base.targetVersion

/-- The options with overrides in place, given the parts that are checked. -/
def CompileOptions.overridden (base : CompileOptions) (o : Overrides) (version : TargetVersion)
    (experimental : Option ExperimentalOptions) (plugins : Option PluginSet) : CompileOptions where
  targetVersion := version
  preserveImports := o.preserveImports.getD base.preserveImports
  preserveFileExtensions := o.preserveFileExtensions.getD base.preserveFileExtensions
  importMapper := o.importMapper.getD base.importMapper
  experimental := experimental
  plugins := plugins
  format := o.format.getD base.format
  formatter := o.formatter.getD base.formatter
  suppressed := o.suppressed.getD base.suppressed

theorem merge_eq (base : CompileOptions) (o : Overrides) : base.merge o = (do
    checkNames .compile o.unknown
    let version ← mergeVersion base o
    let experimental ← mergeExperimental base.experimental o.experimental
    let plugins ← mergePlugins base.plugins o.plugins
    return base.overridden o version experimental plugins) := by
  unfold CompileOptions.merge mergeVersion
  cases o.targetVersion <;> rfl

theorem merge_eq_ok : base.merge o = .ok r ↔ o.unknown = [] ∧ ∃ version experimental plugins,
    mergeVersion base o = .ok version ∧ mergeExperimental base.experimental o.experimental = .ok experimental ∧
      mergePlugins base.plugins o.plugins = .ok plugins ∧
      r = base.overridden o version experimental plugins := by
  rw [merge_eq, bind_eq_ok]
  constructor
  · rintro ⟨_, hnames, h⟩
    obtain ⟨version, hversion, h⟩ := bind_eq_ok.mp h
    obtain ⟨experimental, hexperimental, h⟩ := bind_eq_ok.mp h
    obtain ⟨plugins, hplugins, h⟩ := bind_eq_ok.mp h
    exact ⟨checkNames_eq_ok.mp hnames, version, experimental, plugins, hversion, hexperimental, hplugins,
      (Except.ok.inj h).symm⟩
  · rintro ⟨hnames, version, experimental, plugins, hversion, hexperimental, hplugins, rfl⟩
    exact ⟨(), checkNames_eq_ok.mpr hnames, bind_eq_ok.mpr ⟨version, hversion,
      bind_eq_ok.mpr ⟨experimental, hexperimental, bind_eq_ok.mpr ⟨plugins, hplugins, rfl⟩⟩⟩⟩

/-- A member of the experimental group takes what is given for it, and without that stays. -/
theorem experimental_member {α : Type} {b x : Option ExperimentalOptions}
    {given : Option (Option ExperimentalOverrides)} (h : mergeExperimental b given = .ok x)
    {member : ExperimentalOptions → α} {named : ExperimentalOverrides → Option α}
    (hmember : ∀ group e, member (group.overridden e) = (named e).getD (member group)) :
    x.map member = (givenFor given named).getD (b.map member) := by
  match given with
  | none =>
    obtain rfl := Except.ok.inj h
    rfl
  | some none =>
    obtain rfl := Except.ok.inj h
    rfl
  | some (some e) =>
    obtain ⟨_, group, rfl, rfl⟩ := mergeExperimental_named.mp h
    rw [Option.map_some, Option.map_some, hmember, ← Option.getD_map some]
    rfl

/-- Every option takes the value given for it, and without one stays as it is. -/
theorem merge_value (h : base.merge o = .ok r) (x : Setting) : r.value? x = (o.value? x).getD (base.value? x) := by
  obtain ⟨_, version, experimental, plugins, hversion, hexperimental, _, rfl⟩ := merge_eq_ok.mp h
  cases x with
  | targetVersion =>
    unfold mergeVersion at hversion
    unfold Overrides.value?
    change some version = _
    cases hgiven : o.targetVersion with
    | none =>
      rw [hgiven] at hversion
      rw [← Except.ok.inj hversion]
      rfl
    | some value =>
      rw [hgiven] at hversion
      have hparse : TargetVersion.parse value = .ok version := hversion
      change some version = (TargetVersion.parse value).toOption
      rw [hparse]
      rfl
  | preserveImports => exact (Option.getD_map some _ _).symm
  | preserveFileExtensions => exact (Option.getD_map some _ _).symm
  | importMapper => exact (Option.getD_map some _ _).symm
  | format => exact (Option.getD_map some _ _).symm
  | formatter => exact (Option.getD_map some _ _).symm
  | suppressed => exact (Option.getD_map some _ _).symm
  | injectables => exact experimental_member hexperimental fun _ _ => rfl
  | inject => exact experimental_member hexperimental fun _ _ => rfl
  | outputs => exact experimental_member hexperimental fun _ _ => rfl

/-- What is left of transforms that are not named: none, beside others that are. -/
def leftBy {names α : Type} (given : Option (Option names)) (kept : Option (List α)) : Option (List α) :=
  match given with
  | some (some _) => some []
  | _ => kept

/-- The transforms at a stage are those given for it, and without any what is left. -/
theorem plugins_member {α : Type} {b x : Option PluginSet} {given : Option (Option PluginOverrides)}
    (h : mergePlugins b given = .ok x) {member : PluginSet → List α}
    {named : PluginOverrides → Option (Option (List α))}
    (hmember : ∀ p, member p.alone = ((named p).getD none).getD []) :
    x.map member = (givenFor given fun p => (named p).map (·.getD [])).getD (leftBy given (b.map member)) := by
  match given with
  | none =>
    obtain rfl := Except.ok.inj h
    rfl
  | some none =>
    obtain rfl := Except.ok.inj h
    rfl
  | some (some p) =>
    obtain ⟨_, rfl⟩ := mergePlugins_named.mp h
    rw [Option.map_some, hmember]
    change _ = (((named p).map (·.getD [])).map some).getD (some [])
    cases named p <;> rfl

theorem merge_transforms (h : base.merge o = .ok r) (stage : Stage) :
    r.transforms? stage = (o.transforms? stage).getD (leftBy o.plugins (base.transforms? stage)) := by
  obtain ⟨_, version, experimental, plugins, _, _, hplugins, rfl⟩ := merge_eq_ok.mp h
  cases stage with
  | preComponent => exact plugins_member hplugins fun _ => rfl
  | postComponent => exact plugins_member hplugins fun _ => rfl
  | preCode => exact plugins_member hplugins fun _ => rfl
  | postCode => exact plugins_member hplugins fun _ => rfl

end Merging

section Acceptance

variable {base r : CompileOptions} {o o' : Overrides}

/-- Overrides that are accepted onto options whose experimental group is given: all names are known,
    and so is the target version. -/
structure Overrides.IsAccepted (o : Overrides) (experimental : Option ExperimentalOptions) : Prop where
  names : o.unknown = []
  version : ∀ value, o.targetVersion = some value → ∃ version, TargetVersion.parse value = .ok version
  experimental : ∀ e, o.experimental = some (some e) → e.unknown = [] ∧ ∃ group, experimental = some group
  plugins : ∀ p, o.plugins = some (some p) → p.unknown = []

theorem exists_merge : (∃ r, base.merge o = .ok r) ↔ o.IsAccepted base.experimental := by
  constructor
  · rintro ⟨r, h⟩
    obtain ⟨hnames, version, experimental, plugins, hversion, hexperimental, hplugins, rfl⟩ := merge_eq_ok.mp h
    refine ⟨hnames, fun value hvalue => ?_, fun e he => ?_, fun p hp => ?_⟩
    · unfold mergeVersion at hversion
      rw [hvalue] at hversion
      exact ⟨version, hversion⟩
    · rw [he] at hexperimental
      obtain ⟨hunknown, group, hgroup, _⟩ := mergeExperimental_named.mp hexperimental
      exact ⟨hunknown, group, hgroup⟩
    · rw [hp] at hplugins
      exact (mergePlugins_named.mp hplugins).1
  · intro h
    have hversion : ∃ version, mergeVersion base o = .ok version := by
      unfold mergeVersion
      cases hgiven : o.targetVersion with
      | none => exact ⟨_, rfl⟩
      | some value => exact h.version value hgiven
    have hexperimental : ∃ x, mergeExperimental base.experimental o.experimental = .ok x := by
      match hgiven : o.experimental with
      | none => exact ⟨_, rfl⟩
      | some none => exact ⟨_, rfl⟩
      | some (some e) =>
        obtain ⟨hunknown, group, hgroup⟩ := h.experimental e hgiven
        exact ⟨_, mergeExperimental_named.mpr ⟨hunknown, group, hgroup, rfl⟩⟩
    have hplugins : ∃ x, mergePlugins base.plugins o.plugins = .ok x := by
      match hgiven : o.plugins with
      | none => exact ⟨_, rfl⟩
      | some none => exact ⟨_, rfl⟩
      | some (some p) => exact ⟨_, mergePlugins_named.mpr ⟨h.plugins p hgiven, rfl⟩⟩
    obtain ⟨version, hversion⟩ := hversion
    obtain ⟨experimental, hexperimental⟩ := hexperimental
    obtain ⟨plugins, hplugins⟩ := hplugins
    exact ⟨_, merge_eq_ok.mpr ⟨h.names, version, experimental, plugins, hversion, hexperimental, hplugins, rfl⟩⟩

theorem parse_fault {value : Json} {f : Fault} (h : TargetVersion.parse value = .error f) :
    f.report.category = .configuration := by
  unfold TargetVersion.parse at h
  split at h
  next => cases h
  next =>
    rw [← Except.error.inj h]
    rfl

theorem checkNames_fault {group : OptionGroup} {unknown : List Text} {f : Fault}
    (h : checkNames group unknown = .error f) : f.report.category = .configuration := by
  unfold checkNames at h
  split at h
  next => cases h
  next =>
    rw [← Except.error.inj h]
    rfl

theorem mergeExperimental_fault {group : ExperimentalOptions} {given : Option (Option ExperimentalOverrides)}
    {f : Fault} (h : mergeExperimental (some group) given = .error f) : f.report.category = .configuration := by
  match given with
  | none => cases h
  | some none => cases h
  | some (some e) =>
    rcases bind_eq_error.mp h with h | ⟨_, _, h⟩
    · exact checkNames_fault h
    · cases h

theorem mergePlugins_fault {b : Option PluginSet} {given : Option (Option PluginOverrides)} {f : Fault}
    (h : mergePlugins b given = .error f) : f.report.category = .configuration := by
  match given with
  | none => cases h
  | some none => cases h
  | some (some p) =>
    rcases bind_eq_error.mp h with h | ⟨_, _, h⟩
    · exact checkNames_fault h
    · cases h

/-- Overrides are refused for a name or for the target version, as long as there is a group to put
    experimental overrides into. -/
theorem merge_fault {f : Fault} (h : base.merge o = .error f) (hgroup : base.experimental ≠ none) :
    f.report.category = .configuration := by
  rw [merge_eq] at h
  rcases bind_eq_error.mp h with h | ⟨_, _, h⟩
  · exact checkNames_fault h
  rcases bind_eq_error.mp h with h | ⟨_, _, h⟩
  · unfold mergeVersion at h
    split at h
    next => exact parse_fault h
    next => cases h
  rcases bind_eq_error.mp h with h | ⟨_, _, h⟩
  · obtain ⟨group, hsome⟩ := Option.ne_none_iff_exists'.mp hgroup
    rw [hsome] at h
    exact mergeExperimental_fault h
  rcases bind_eq_error.mp h with h | ⟨_, _, h⟩
  · exact mergePlugins_fault h
  · cases h

/-- A name that is no option is refused. -/
theorem merge_unknown (h : o.NamesUnknown) : ∃ f, base.merge o = .error f := by
  cases hresult : base.merge o with
  | error f => exact ⟨f, rfl⟩
  | ok r =>
    have haccepted := exists_merge.mp ⟨r, hresult⟩
    rcases h with h | ⟨e, he, h⟩ | ⟨p, hp, h⟩
    · exact absurd haccepted.names h
    · exact absurd (haccepted.experimental e he).1 h
    · exact absurd (haccepted.plugins p hp) h

end Acceptance

section Order

variable {base r r' s s' : CompileOptions} {o o' : Overrides}

theorem BothByName.symm {names : Type} {given other : Option (Option names)} (h : BothByName given other) :
    BothByName other given := by
  rcases h with h | h | ⟨h, h'⟩
  · exact .inr (.inl h)
  · exact .inl h
  · exact .inr (.inr ⟨h', h⟩)

theorem Apart.symm (h : Apart o o') : Apart o' o where
  value x := (h.value x).symm
  transforms stage := (h.transforms stage).symm
  experimental := h.experimental.symm
  plugins := h.plugins.symm

/-- Overrides by name, or none, leave a group where there was one, and only there. -/
theorem experimental_kept (h : base.merge o = .ok r) (hnames : o.experimental ≠ some none) :
    (∃ group, r.experimental = some group) ↔ ∃ group, base.experimental = some group := by
  obtain ⟨_, version, experimental, plugins, _, hexperimental, _, rfl⟩ := merge_eq_ok.mp h
  change (∃ group, experimental = some group) ↔ _
  match hgiven : o.experimental with
  | none =>
    rw [hgiven] at hexperimental
    rw [← Except.ok.inj hexperimental]
  | some none => exact absurd hgiven hnames
  | some (some e) =>
    rw [hgiven] at hexperimental
    obtain ⟨_, group, hgroup, rfl⟩ := mergeExperimental_named.mp hexperimental
    exact ⟨fun _ => ⟨group, hgroup⟩, fun _ => ⟨_, rfl⟩⟩

/-- Whether overrides are accepted does not depend on others that are apart from them. -/
theorem isAccepted_after (hapart : BothByName o.experimental o'.experimental) (h : base.merge o = .ok r) :
    o'.IsAccepted r.experimental ↔ o'.IsAccepted base.experimental := by
  have hkept : ∀ e, o'.experimental = some (some e) →
      ((∃ group, r.experimental = some group) ↔ ∃ group, base.experimental = some group) := by
    intro e he
    refine experimental_kept h fun hvalue => ?_
    rw [hvalue, he] at hapart
    rcases hapart with hnone | hnone | ⟨⟨_, hnone⟩, _⟩ <;> cases hnone
  constructor
  · intro haccepted
    exact ⟨haccepted.names, haccepted.version, fun e he => ⟨(haccepted.experimental e he).1,
      (hkept e he).mp (haccepted.experimental e he).2⟩, haccepted.plugins⟩
  · intro haccepted
    exact ⟨haccepted.names, haccepted.version, fun e he => ⟨(haccepted.experimental e he).1,
      (hkept e he).mpr (haccepted.experimental e he).2⟩, haccepted.plugins⟩

theorem transforms_of_none (h : base.merge o = .ok r) (hnone : o.plugins = none) (stage : Stage) :
    r.transforms? stage = base.transforms? stage := by
  have hgiven : o.transforms? stage = none := by
    cases stage <;> simp [Overrides.transforms?, givenFor, hnone]
  rw [merge_transforms h, hgiven, hnone]
  rfl

theorem transforms_of_names (h : base.merge o = .ok r) (hnames : o.NamesStages) (stage : Stage) :
    r.transforms? stage = (o.transforms? stage).getD (some []) := by
  obtain ⟨p, hp⟩ := hnames
  rw [merge_transforms h, hp]
  rfl

theorem value_comm (hapart : Apart o o') (h : base.merge o = .ok r) (h' : r.merge o' = .ok r')
    (hs : base.merge o' = .ok s) (hs' : s.merge o = .ok s') (x : Setting) : s'.value? x = r'.value? x := by
  rw [merge_value h', merge_value h, merge_value hs', merge_value hs]
  rcases hapart.value x with hnone | hnone
  · rw [hnone]
    rfl
  · rw [hnone]
    rfl

/-- Where both name stages, the one that comes last leaves nothing of the other. -/
theorem transforms_comm (hapart : Apart o o') (h : base.merge o = .ok r) (h' : r.merge o' = .ok r')
    (hs : base.merge o' = .ok s) (hs' : s.merge o = .ok s')
    (hempty : o.NamesStages → o'.NamesStages → o.GivesNoTransforms ∧ o'.GivesNoTransforms) (stage : Stage) :
    s'.transforms? stage = r'.transforms? stage := by
  rcases hapart.plugins with hnone | hnone | ⟨hnames, hnames'⟩
  · rw [transforms_of_none hs' hnone, merge_transforms hs, merge_transforms h', transforms_of_none h hnone]
  · rw [transforms_of_none h' hnone, merge_transforms h, merge_transforms hs', transforms_of_none hs hnone]
  · obtain ⟨hnothing, hnothing'⟩ := hempty hnames hnames'
    have hleft : ∀ given : Option (Option (List stage.Transform)),
        (∀ ts, given = some ts → ts = some []) → given.getD (some []) = some [] := by
      intro given hgiven
      cases given with
      | none => rfl
      | some ts => exact hgiven ts rfl
    rw [transforms_of_names hs' hnames, transforms_of_names h' hnames', hleft _ (hnothing stage),
      hleft _ (hnothing' stage)]

/-- Transforms that one of two overrides gives are gone after the other. -/
theorem givesNoTransforms_of_eq (hapart : Apart o o') (h' : r.merge o' = .ok r') (hs' : s.merge o = .ok s')
    (hsame : s' = r') (hnames : o.NamesStages) (hnames' : o'.NamesStages) : o.GivesNoTransforms := by
  intro stage ts hts
  have hother : o'.transforms? stage = none :=
    (hapart.transforms stage).resolve_left fun hnone => by rw [hnone] at hts; cases hts
  have hfirst := transforms_of_names hs' hnames stage
  have hlast := transforms_of_names h' hnames' stage
  rw [hts] at hfirst
  rw [hother, ← hsame, hfirst] at hlast
  exact hlast

theorem merge_apart (hapart : Apart o o') (h : base.merge o = .ok r) (h' : r.merge o' = .ok r') :
    ∃ s s', base.merge o' = .ok s ∧ s.merge o = .ok s' ∧ (s' = r' ↔
      (o.NamesStages → o'.NamesStages → o.GivesNoTransforms ∧ o'.GivesNoTransforms)) := by
  obtain ⟨s, hs⟩ := exists_merge.mpr ((isAccepted_after hapart.experimental h).mp (exists_merge.mp ⟨r', h'⟩))
  obtain ⟨s', hs'⟩ := exists_merge.mpr
    ((isAccepted_after hapart.symm.experimental hs).mpr (exists_merge.mp ⟨r, h⟩))
  refine ⟨s, s', hs, hs', fun hsame hnames hnames' => ?_, fun hempty => ?_⟩
  · exact ⟨givesNoTransforms_of_eq hapart h' hs' hsame hnames hnames',
      givesNoTransforms_of_eq hapart.symm hs' h' hsame.symm hnames' hnames⟩
  · exact CompileOptions.ext (value_comm hapart h h' hs hs') (transforms_comm hapart h h' hs hs' hempty)

/-- A stage keeps its transforms or takes those given for it, unless it is left out of overrides that
    name stages. -/
theorem merge_transforms_iff (h : base.merge o = .ok r) (stage : Stage) :
    r.transforms? stage = (o.transforms? stage).getD (base.transforms? stage) ↔
      (o.NamesStages → o.transforms? stage = none → base.transforms? stage = some []) := by
  rw [merge_transforms h]
  by_cases hnames : o.NamesStages
  · obtain ⟨p, hp⟩ := hnames
    have hleft : leftBy o.plugins (base.transforms? stage) = some [] := by rw [hp]; rfl
    rw [hleft]
    cases o.transforms? stage with
    | none => exact ⟨fun hsame _ _ => hsame.symm, fun hbase => (hbase ⟨p, hp⟩ rfl).symm⟩
    | some ts => exact ⟨fun _ _ => nofun, fun _ => rfl⟩
  · have hleft : leftBy o.plugins (base.transforms? stage) = base.transforms? stage := by
      unfold leftBy
      split
      next p hp => exact absurd ⟨p, hp⟩ hnames
      next => rfl
    rw [hleft]
    exact ⟨fun _ hstages => absurd hstages hnames, fun _ => rfl⟩

end Order

/-- Overriding options. Every option takes the value given for it or stays, and so does every stage,
    except that overrides of plugins leave nothing at the stages that they do not name. Overrides that
    are apart go either way round, except that the last of two that name stages takes the transforms of
    the other away. Names that are no options are refused. -/
theorem overridden_by_name (base : CompileOptions) (o : Overrides) :
    (∀ r, base.merge o = .ok r →
      (∀ x, r.value? x = (o.value? x).getD (base.value? x)) ∧
      ∀ stage, r.transforms? stage = (o.transforms? stage).getD (base.transforms? stage) ↔
        (o.NamesStages → o.transforms? stage = none → base.transforms? stage = some [])) ∧
    (∀ o' r r', Apart o o' → base.merge o = .ok r → r.merge o' = .ok r' →
      ∃ s s', base.merge o' = .ok s ∧ s.merge o = .ok s' ∧ (s' = r' ↔
        (o.NamesStages → o'.NamesStages → o.GivesNoTransforms ∧ o'.GivesNoTransforms))) ∧
    (o.NamesUnknown → ∃ f, base.merge o = .error f ∧
      (base.experimental ≠ none → f.report.category = .configuration)) := by
  refine ⟨fun r h => ⟨merge_value h, merge_transforms_iff h⟩, fun o' r r' hapart h h' => merge_apart hapart h h',
    fun h => ?_⟩
  obtain ⟨f, hf⟩ := merge_unknown h
  exact ⟨f, hf, merge_fault hf⟩

/-- Overrides that ask for injection. -/
def injecting : Overrides :=
  { Overrides.none with experimental := some (some ⟨[], none, some (.bool true), none⟩) }

/-- Overrides of plugins with transforms of code, before and after it is put together. -/
def codeStages (preCode postCode : Option (Option (List CodeTransform))) : Overrides :=
  { Overrides.none with plugins := some (some ⟨[], none, none, preCode, postCode⟩) }

theorem injecting_apart_from_stages : ∃ r r' s s',
    CompileOptions.default.merge injecting = .ok r ∧ r.merge (codeStages none (some (some [.ok]))) = .ok r' ∧
      CompileOptions.default.merge (codeStages none (some (some [.ok]))) = .ok s ∧ s.merge injecting = .ok s' ∧
      s' = r' := by
  have hapart : Apart injecting (codeStages none (some (some [.ok]))) := {
    value := fun x => .inr (by cases x <;> rfl)
    transforms := fun stage => .inl (by cases stage <;> rfl)
    experimental := .inr (.inl rfl)
    plugins := .inl rfl }
  obtain ⟨s, s', hs, hs', hsame⟩ :=
    (overridden_by_name .default injecting).2.1 (codeStages none (some (some [.ok]))) _ _ hapart rfl rfl
  exact ⟨_, _, s, s', rfl, rfl, hs, hs', hsame.mpr fun hstages => by cases hstages.choose_spec⟩

/-- A transform before the code is gone once another is asked for after it. -/
theorem unnamed_stage_emptied : ∃ r r', CompileOptions.default.merge (codeStages (some (some [.ok])) none) = .ok r ∧
    r.merge (codeStages none (some (some [.ok]))) = .ok r' ∧
    (codeStages none (some (some [.ok]))).transforms? .preCode = none ∧
    r'.transforms? .preCode ≠ r.transforms? .preCode :=
  ⟨_, _, rfl, rfl, rfl, nofun⟩

end ElementCompiler
