import ElementCompiler.Proofs.Module.Runs

set_option autoImplicit false

/-!
The names of the framework in a module: the decorators and the aggregator that the generator writes
in a class are those that the module imports.
-/

namespace ElementCompiler.Module

open Attempt Text Run

def decoratorNames : List Text :=
  ["autoinject", "bindable", "computedFrom", "customElement", "inlineView"]

def aggregatorParameter : Text := "private eventAggregator: EventAggregator"

def aggregatorField : Text := "this.eventAggregator"

/-- The uses of decorators and of the aggregator. -/
def frameworkWords : List Text :=
  [aggregatorParameter, aggregatorField, "@autoinject", "@bindable", "@computedFrom", "@customElement",
    "@inlineView"]

namespace Run

/-- The generator itself writes the word. -/
def Writes (word : Text) (runs : List Run) : Prop := ∃ t, own t ∈ runs ∧ occursIn word t = true

variable {w t sep : Text} {runs rest : List Run} {lists : List (List Run)}

theorem writes_nil : Writes w [] ↔ False := by simp [Writes]

theorem writes_own : Writes w (own t :: runs) ↔ occursIn w t = true ∨ Writes w runs := by
  simp [Writes, or_and_right, exists_or]

theorem writes_taken : Writes w (taken t :: runs) ↔ Writes w runs := by simp [Writes]

theorem writes_append : Writes w (runs ++ rest) ↔ Writes w runs ∨ Writes w rest := by
  simp [Writes, or_and_right, exists_or]

theorem writes_join (hsep : occursIn w sep = false) :
    Writes w (Run.join sep lists) ↔ ∃ runs ∈ lists, Writes w runs := by
  constructor
  · rintro ⟨t, ht, hword⟩
    rcases mem_join ht with heq | ⟨runs, hruns, ht⟩
    · rw [own.inj heq, hsep] at hword
      cases hword
    · exact ⟨runs, hruns, t, ht, hword⟩
  · rintro ⟨runs, hruns, t, ht, hword⟩
    exact ⟨t, mem_join_of_mem hruns ht, hword⟩

theorem not_writes_join (hsep : occursIn w sep = false) (h : ∀ runs ∈ lists, ¬ Writes w runs) :
    ¬ Writes w (Run.join sep lists) := by
  rw [writes_join hsep]
  rintro ⟨runs, hruns, hword⟩
  exact h runs hruns hword

end Run

/-- A literal in which the framework is not used. Every use has one of two characters. -/
theorem not_occursIn {w t : Text} (hw : w ∈ frameworkWords) (hat : .char '@' ∉ t) (hA : .char 'A' ∉ t) :
    occursIn w t = false := by
  have hmark : ∀ w ∈ frameworkWords, .char '@' ∈ w ∨ .char 'A' ∈ w := by decide
  refine Bool.eq_false_iff.mpr fun hoccurs => ?_
  rcases hmark w hw with h | h
  · exact hat (mem_of_occursIn hoccurs h)
  · exact hA (mem_of_occursIn hoccurs h)

/-- The literals in which the generator uses the framework, each with what it uses. -/
def frameworkLiterals : List (Text × Text) :=
  [("  private eventAggregator: EventAggregator", aggregatorParameter),
    ("this.eventAggregator.subscribe(", aggregatorField), ("this.eventAggregator.publish(", aggregatorField),
    ("@autoinject\n", "@autoinject"), ("@bindable() ", "@bindable"), ("@computedFrom(", "@computedFrom"),
    ("@customElement(\"", "@customElement"), ("\")\n@inlineView(`\n", "@inlineView")]

/-- Such a literal uses nothing else of the framework. -/
theorem occursIn_literal {w literal used : Text} (hw : w ∈ frameworkWords)
    (h : (literal, used) ∈ frameworkLiterals) : occursIn w literal = true ↔ w = used := by
  have hall : ∀ l ∈ frameworkLiterals, ∀ w ∈ frameworkWords, (occursIn w l.1 = true ↔ w = l.2) := by
    decide +kernel
  exact hall _ h w hw

section Sections

variable {c : Component} {bridge : ContextBridge} {runs : List Run} {w : Text}

theorem writes_propRuns {prop : Text} (h : propRuns c prop = .ok runs) (hw : w ∈ frameworkWords) :
    Writes w runs ↔ w = "@bindable" := by
  obtain ⟨type, _, h⟩ := bind_eq_ok.mp h
  obtain rfl := Except.ok.inj h
  have hlead : occursIn w "@bindable() " = true ↔ w = "@bindable" :=
    occursIn_literal hw (by simp [frameworkLiterals])
  split <;>
    simp (disch := decide) [writes_own, writes_taken, writes_nil, not_occursIn hw, hlead]

theorem not_writes_valueRefRuns {mapper : CodeMapper} {name : Text}
    (h : valueRefRuns c mapper name = .ok runs) (hw : w ∈ frameworkWords) : ¬ Writes w runs := by
  rw [valueRefRuns] at h
  split at h
  next => cases h
  next spec _ =>
    dsimp only at h
    split at h
    next =>
      obtain ⟨code, _, h⟩ := bind_eq_ok.mp h
      obtain rfl := Except.ok.inj h
      split <;> simp (disch := decide) [writes_own, writes_taken, writes_nil, not_occursIn hw]
    next =>
      obtain rfl := Except.ok.inj h
      split <;> simp (disch := decide) [writes_own, writes_taken, writes_nil, not_occursIn hw]

theorem not_writes_stateRuns {mapper : CodeMapper} {s : Text × StateValue}
    (h : stateRuns mapper s = .ok runs) (hw : w ∈ frameworkWords) : ¬ Writes w runs := by
  obtain ⟨code, _, h⟩ := bind_eq_ok.mp h
  split at h
  next =>
    obtain ⟨t, _, h⟩ := bind_eq_ok.mp h
    obtain rfl := Except.ok.inj h
    simp [writes_taken, writes_nil]
  next =>
    obtain rfl := Except.ok.inj h
    simp (disch := decide) [writes_own, writes_taken, writes_nil, not_occursIn hw]

theorem writes_bracedRuns (hw : w ∈ frameworkWords) (head body : List Run) :
    Writes w (bracedRuns head body) ↔ Writes w head ∨ Writes w body := by
  simp (disch := decide) [bracedRuns, writes_append, writes_own, writes_nil, not_occursIn hw]

theorem writes_bodyRuns (code : Text) : Writes w (bodyRuns code) ↔ False := by
  rw [bodyRuns, writes_taken, writes_nil]

theorem writes_parameterRuns (hw : w ∈ frameworkWords) (injectables : List Text) :
    Writes w (parameterRuns injectables bridge) ↔
      w = aggregatorParameter ∧ bridge.hasWrites = true := by
  have hparameter : occursIn w "  private eventAggregator: EventAggregator" = true ↔
      w = aggregatorParameter :=
    occursIn_literal hw (by simp [frameworkLiterals])
  rw [parameterRuns]
  cases bridge.hasWrites <;> cases injectables <;>
    simp (disch := decide) [Run.join, writes_own, writes_bodyRuns, writes_nil, not_occursIn hw, hparameter]

theorem writes_constructorRuns {injectables : List Text}
    (h : constructorRuns c injectables bridge = .ok runs) (hw : w ∈ frameworkWords) :
    Writes w runs ↔ w = aggregatorParameter ∧ bridge.hasWrites = true := by
  rw [constructorRuns] at h
  split at h
  next hnone =>
    obtain rfl := Except.ok.inj h
    have hbridge : bridge.hasWrites = false := by simpa using (Bool.and_eq_true_iff.mp hnone).2
    simp [writes_nil, hbridge]
  next =>
    have hsignature : Writes w (if injectables.isEmpty && !bridge.hasWrites then [own "constructor()"]
        else own "constructor(\n" :: parameterRuns injectables bridge ++ [own "\n)"]) ↔
          w = aggregatorParameter ∧ bridge.hasWrites = true := by
      split
      next hempty =>
        have hbridge : bridge.hasWrites = false := by simpa using (Bool.and_eq_true_iff.mp hempty).2
        simp (disch := decide) [writes_own, writes_nil, not_occursIn hw, hbridge]
      next =>
        simp (disch := decide) [writes_append, writes_own, writes_nil, writes_parameterRuns hw, not_occursIn hw]
    dsimp only at h
    split at h
    next =>
      obtain rfl := Except.ok.inj h
      rw [writes_append, hsignature, writes_own, not_occursIn hw (by decide) (by decide), writes_nil]
      simp
    next =>
      obtain ⟨code, _, h⟩ := bind_eq_ok.mp h
      obtain rfl := Except.ok.inj h
      rw [writes_bracedRuns hw, hsignature, writes_bodyRuns, or_false]

theorem not_writes_callRuns (hw : w ∈ frameworkWords) : ∀ part ∈ callRuns bridge, ¬ Writes w part := by
  rw [callRuns]
  cases bridge.hasReads <;> cases bridge.hasWrites <;>
    simp (disch := decide) [writes_own, writes_nil, not_occursIn hw]

theorem not_writes_attachedRuns (h : attachedRuns c bridge = .ok runs) (hw : w ∈ frameworkWords) :
    ¬ Writes w runs := by
  rw [attachedRuns] at h
  split at h
  next =>
    obtain rfl := Except.ok.inj h
    exact writes_nil.mp
  next =>
    obtain ⟨codes, _, h⟩ := bind_eq_ok.mp h
    obtain rfl := Except.ok.inj h
    have hbody : ¬ Writes w (Run.join "\n" (codes.map bodyRuns ++ callRuns bridge)) := by
      refine not_writes_join (not_occursIn hw (by decide) (by decide)) fun part hpart => ?_
      rcases List.mem_append.mp hpart with hpart | hpart
      · obtain ⟨code, _, rfl⟩ := List.mem_map.mp hpart
        exact (writes_bodyRuns code).mp
      · exact not_writes_callRuns hw part hpart
    rw [writes_bracedRuns hw, writes_own, writes_nil, not_occursIn hw (by decide) (by decide)]
    simpa using hbody

theorem not_writes_observedRuns (hw : w ∈ frameworkWords) (updates : List UpdateHook) :
    ¬ Writes w (observedRuns updates) := by
  refine not_writes_join (not_occursIn hw (by decide) (by decide)) fun part hpart => ?_
  obtain ⟨d, _, rfl⟩ := List.mem_map.mp hpart
  simp (disch := decide) [writes_own, writes_taken, writes_nil, not_occursIn hw]

theorem writes_observerRuns (h : observerRuns c = .ok runs) (hw : w ∈ frameworkWords) :
    Writes w runs ↔ w = "@computedFrom" ∧ c.hooks.onUpdate ≠ [] := by
  rw [observerRuns] at h
  split at h
  next hnone =>
    obtain rfl := Except.ok.inj h
    simp [writes_nil, hnone]
  next hsome =>
    obtain ⟨codes, _, h⟩ := bind_eq_ok.mp h
    obtain rfl := Except.ok.inj h
    have hupdates : c.hooks.onUpdate ≠ [] := hsome
    have hlead : occursIn w "@computedFrom(" = true ↔ w = "@computedFrom" :=
      occursIn_literal hw (by simp [frameworkLiterals])
    simp (disch := decide) [writes_bracedRuns hw, not_writes_observedRuns hw, Run.join, writes_append,
      writes_own, writes_bodyRuns, writes_nil, not_occursIn hw, hlead, hupdates]

theorem not_writes_detachedRuns (h : detachedRuns c = .ok runs) (hw : w ∈ frameworkWords) :
    ¬ Writes w runs := by
  rw [detachedRuns] at h
  split at h
  next =>
    obtain rfl := Except.ok.inj h
    exact writes_nil.mp
  next code _ =>
    obtain ⟨s, _, h⟩ := bind_eq_ok.mp h
    obtain rfl := Except.ok.inj h
    simp (disch := decide) [writes_bracedRuns hw, writes_bodyRuns, writes_own, writes_nil, not_occursIn hw]

theorem writes_methodRuns {name : Text} {statements : List (List Run)} (hw : w ∈ frameworkWords)
    (hname : occursIn w (name ++ "() \x7b\n") = false)
    (h : ∀ s ∈ statements, Writes w s ↔ w = aggregatorField) :
    Writes w (methodRuns name statements) ↔ w = aggregatorField ∧ statements ≠ [] := by
  rw [methodRuns]
  cases statements with
  | nil => simp [writes_nil]
  | cons s rest =>
    have hbody : Writes w (Run.join "\n" (s :: rest)) ↔ w = aggregatorField := by
      rw [writes_join (not_occursIn hw (by decide) (by decide))]
      constructor
      · rintro ⟨runs, hruns, hword⟩
        exact (h runs hruns).mp hword
      · exact fun hword => ⟨s, List.mem_cons_self, (h s List.mem_cons_self).mpr hword⟩
    rw [if_neg (by simp), writes_append, writes_own, hname, hbody, writes_own, writes_nil,
      not_occursIn hw (by decide) (by decide)]
    simp

theorem writes_readRuns (hw : w ∈ frameworkWords) (r : Text × ContextRead) :
    Writes w (readRuns r) ↔ w = aggregatorField := by
  have hlead : occursIn w "this.eventAggregator.subscribe(" = true ↔ w = aggregatorField :=
    occursIn_literal hw (by simp [frameworkLiterals])
  simp (disch := decide) [readRuns, writes_own, writes_taken, writes_nil, not_occursIn hw, hlead]

theorem writes_writeRuns {entry : ContextWrite} (h : writeRuns entry = .ok runs) (hw : w ∈ frameworkWords) :
    Writes w runs ↔ w = aggregatorField := by
  obtain ⟨value, _, h⟩ := bind_eq_ok.mp h
  obtain rfl := Except.ok.inj h
  have hlead : occursIn w "this.eventAggregator.publish(" = true ↔ w = aggregatorField :=
    occursIn_literal hw (by simp [frameworkLiterals])
  simp (disch := decide) [writes_own, writes_taken, writes_nil, not_occursIn hw, hlead]

theorem writes_headRuns (hw : w ∈ frameworkWords) (parts : ModuleParts) : Writes w (headRuns parts) ↔
    w = "@customElement" ∨ w = "@inlineView" ∨ w = "@autoinject" ∧ parts.autoinject = true := by
  have hinject : occursIn w "@autoinject\n" = true ↔ w = "@autoinject" :=
    occursIn_literal hw (by simp [frameworkLiterals])
  have helement : occursIn w "@customElement(\"" = true ↔ w = "@customElement" :=
    occursIn_literal hw (by simp [frameworkLiterals])
  have hview : occursIn w "\")\n@inlineView(`\n" = true ↔ w = "@inlineView" :=
    occursIn_literal hw (by simp [frameworkLiterals])
  rw [headRuns]
  cases parts.autoinject with
  | false =>
    simp (disch := decide) [writes_own, writes_taken, writes_nil, not_occursIn hw, helement, hview]
  | true =>
    simp (disch := decide) [writes_own, writes_taken, writes_nil, not_occursIn hw, hinject, helement, hview]
    rw [or_left_comm, or_comm (a := w = "@autoinject")]

end Sections

section Class

variable {parts : ModuleParts} {c : Component} {p : SectionParts} {r : ClassRuns}

/-- Which names of the framework the generator writes, section by section. -/
structure WritesNames (parts : ModuleParts) (c : Component) (p : SectionParts) (r : ClassRuns)
    (w : Text) : Prop where
  head : Writes w r.head ↔
    w = "@customElement" ∨ w = "@inlineView" ∨ w = "@autoinject" ∧ parts.autoinject = true
  props : Writes w r.props ↔ w = "@bindable" ∧ p.bindableProps ≠ []
  construct : Writes w r.construct ↔ w = aggregatorParameter ∧ p.bridge.hasWrites = true
  observer : Writes w r.observer ↔ w = "@computedFrom" ∧ c.hooks.onUpdate ≠ []
  readMethod : Writes w r.readMethod ↔ w = aggregatorField ∧ c.context.reads ≠ []
  writeMethod : Writes w r.writeMethod ↔ w = aggregatorField ∧ c.context.writes ≠ []
  others : ∀ s ∈ [r.assignedImports, r.outputs, r.elementRefs, r.valueRefs, r.state, r.attached, r.detached],
    ¬ Writes w s

theorem mapM_ne_nil {α β : Type} {f : α → Attempt β} {as : List α} {bs : List β}
    (h : as.mapM f = .ok bs) : bs ≠ [] ↔ as ≠ [] := by
  cases mapM_eq_ok.mp h with
  | nil => simp
  | cons _ _ => simp

theorem writesNames_of_classRuns (h : classRuns parts c p = .ok r) {w : Text} (hw : w ∈ frameworkWords) :
    WritesNames parts c p r w := by
  obtain ⟨props, hprops, h⟩ := bind_eq_ok.mp h
  obtain ⟨valueRefs, hvalueRefs, h⟩ := bind_eq_ok.mp h
  obtain ⟨state, hstate, h⟩ := bind_eq_ok.mp h
  obtain ⟨construct, hconstruct, h⟩ := bind_eq_ok.mp h
  obtain ⟨attached, hattached, h⟩ := bind_eq_ok.mp h
  obtain ⟨observer, hobserver, h⟩ := bind_eq_ok.mp h
  obtain ⟨detached, hdetached, h⟩ := bind_eq_ok.mp h
  obtain ⟨writes, hwrites, h⟩ := bind_eq_ok.mp h
  obtain rfl := Except.ok.inj h
  have hnewline : occursIn w "\n" = false := not_occursIn hw (by decide) (by decide)
  have hlines : ∀ {α : Type} (f : α → List Run) (as : List α), (∀ a, ¬ Writes w (f a)) →
      ¬ Writes w (Run.join "\n" (as.map f)) := fun f as hf => not_writes_join hnewline fun runs hruns => by
    obtain ⟨a, _, rfl⟩ := List.mem_map.mp hruns
    exact hf a
  refine ⟨writes_headRuns hw parts, ?_, writes_constructorRuns hconstruct hw, writes_observerRuns hobserver hw,
    ?_, ?_, ?_⟩
  · rw [writes_join hnewline, ← mapM_ne_nil hprops]
    have hprop : ∀ runs ∈ props, Writes w runs ↔ w = "@bindable" := fun runs hruns => by
      obtain ⟨prop, _, hprop⟩ := exists_left (mapM_eq_ok.mp hprops) runs hruns
      exact writes_propRuns hprop hw
    constructor
    · rintro ⟨runs, hruns, hword⟩
      exact ⟨(hprop runs hruns).mp hword, List.ne_nil_of_mem hruns⟩
    · rintro ⟨hword, hne⟩
      obtain ⟨runs, hruns⟩ := List.exists_mem_of_ne_nil _ hne
      exact ⟨runs, hruns, (hprop runs hruns).mpr hword⟩
  · rw [writes_methodRuns hw (not_occursIn hw (by decide) (by decide)) fun s hs => ?_]
    · simp
    · obtain ⟨r, _, rfl⟩ := List.mem_map.mp hs
      exact writes_readRuns hw r
  · rw [writes_methodRuns hw (not_occursIn hw (by decide) (by decide)) fun s hs => ?_]
    · rw [mapM_ne_nil hwrites]
    · obtain ⟨entry, _, hentry⟩ := exists_left (mapM_eq_ok.mp hwrites) s hs
      exact writes_writeRuns hentry hw
  · simp only [List.forall_mem_cons, List.not_mem_nil, false_implies, implies_true, and_true]
    refine ⟨hlines _ _ fun name => ?_, hlines _ _ fun output => ?_, hlines _ _ fun name => ?_,
      not_writes_join hnewline fun runs hruns => ?_, not_writes_join hnewline fun runs hruns => ?_,
      not_writes_attachedRuns hattached hw, not_writes_detachedRuns hdetached hw⟩
    · simp (disch := decide) [writes_own, writes_taken, writes_nil, not_occursIn hw]
    · simp (disch := decide) [writes_own, writes_taken, writes_nil, not_occursIn hw]
    · simp (disch := decide) [writes_own, writes_taken, writes_nil, not_occursIn hw]
    · obtain ⟨name, _, hname⟩ := exists_left (mapM_eq_ok.mp hvalueRefs) runs hruns
      exact not_writes_valueRefRuns hname hw
    · obtain ⟨s, _, hs⟩ := exists_left (mapM_eq_ok.mp hstate) runs hruns
      exact not_writes_stateRuns hs hw

theorem hasWrites_iff {context : ContextSpec} {bridge : ContextBridge}
    (h : ContextBridge.build context publishedCode = .ok bridge) :
    bridge.hasWrites = true ↔ context.writes ≠ [] := by
  obtain ⟨statements, hstatements, h⟩ := bind_eq_ok.mp h
  obtain rfl := Except.ok.inj h
  rw [ContextBridge.hasWrites, Bool.not_eq_true', List.isEmpty_eq_false_iff, ← mapM_ne_nil hstatements]
  refine ⟨fun hcode hnil => hcode (by rw [hnil]; rfl), fun hne => ?_⟩
  obtain ⟨s, hs⟩ := List.exists_mem_of_ne_nil _ hne
  obtain ⟨w, _, hw⟩ := exists_left (mapM_eq_ok.mp hstatements) s hs
  obtain ⟨value, _, hw⟩ := bind_eq_ok.mp hw
  obtain rfl := Except.ok.inj hw
  exact join_ne_nil hs (by simp [ofString])

theorem pairwise_runtimeFeatures (c : Component) (bridge : ContextBridge) (bindable : List Text) :
    (runtimeFeatures c bridge bindable).Pairwise fun d e => d ≠ e ∧ atMost d e = true := by
  dsimp only [runtimeFeatures]
  generalize bridge.hasWrites = writing
  generalize bindable.isEmpty = unbound
  generalize c.hooks.onUpdate.isEmpty = unobserved
  revert writing unbound unobserved
  decide

theorem mem_runtimeFeatures {c : Component} {bridge : ContextBridge} {bindable : List Text} {d : Text} :
    d ∈ runtimeFeatures c bridge bindable ↔ d = "autoinject" ∧ bridge.hasWrites = true ∨
      d = "bindable" ∧ bindable ≠ [] ∨ d = "computedFrom" ∧ c.hooks.onUpdate ≠ [] ∨
      d = "customElement" ∨ d = "inlineView" := by
  rw [runtimeFeatures]
  cases bridge.hasWrites <;> cases bindable <;> cases c.hooks.onUpdate <;> simp

/-- A module imports what its class uses of the framework. A subscription to a context brings nothing
    that it does not bring itself: only what publishes does. -/
structure ClosesNames (context : ContextSpec) (text : Text) (features : List Text) (imports : Bool)
    (r : ClassRuns) : Prop where
  line : ∃ rest, text = (if imports then aggregatorImport else []) ++ "import \x7b " ++
    Text.join ", " features ++ " \x7d from \"aurelia-framework\";\n\n" ++ rest
  sorted : features.Pairwise fun d e => d ≠ e ∧ atMost d e = true
  decorators : ∀ d, d ∈ features ↔
    d ∈ decoratorNames ∧ Writes ("@" ++ d) (r.head ++ r.sections.flatten)
  parameter : imports = true ↔ Writes aggregatorParameter r.construct
  publishes : imports = true ↔ Writes aggregatorField r.writeMethod
  subscribes : Writes aggregatorField r.readMethod ↔ context.reads ≠ []
  elsewhere : ∀ s ∈ [r.head, r.props, r.assignedImports, r.outputs, r.elementRefs, r.valueRefs, r.state,
    r.construct, r.attached, r.observer, r.detached], ¬ Writes aggregatorField s

theorem writes_class {w : Text} (h : WritesNames parts c p r w) :
    Writes w (r.head ++ r.sections.flatten) ↔
      w = "@customElement" ∨ w = "@inlineView" ∨ w = "@autoinject" ∧ parts.autoinject = true ∨
        w = "@bindable" ∧ p.bindableProps ≠ [] ∨ w = "@computedFrom" ∧ c.hooks.onUpdate ≠ [] ∨
        w = aggregatorParameter ∧ p.bridge.hasWrites = true ∨
        w = aggregatorField ∧ (c.context.reads ≠ [] ∨ c.context.writes ≠ []) := by
  have hothers := h.others
  simp only [List.forall_mem_cons, List.not_mem_nil, false_implies, implies_true, and_true] at hothers
  obtain ⟨hassigned, houtputs, helements, hvalueRefs, hstate, hattached, hdetached⟩ := hothers
  simp only [ClassRuns.sections, List.flatten_cons, List.flatten_nil, writes_append, writes_nil, h.head,
    h.props, h.construct, h.observer, h.readMethod, h.writeMethod, hassigned, houtputs, helements,
    hvalueRefs, hstate, hattached, hdetached, false_or, or_false, and_or_left]
  grind

theorem closesNames_of_writesNames (hr : ∀ w ∈ frameworkWords, WritesNames parts c p r w)
    (hbridge : ContextBridge.build c.context publishedCode = .ok p.bridge)
    (himports : parts.importsAggregator = p.bridge.hasWrites)
    (hautoinject : parts.autoinject = p.bridge.hasWrites)
    (hfeatures : parts.runtimeFeatures = runtimeFeatures c p.bridge p.bindableProps) :
    ClosesNames c.context parts.text parts.runtimeFeatures parts.importsAggregator r := by
  have hfield := hr aggregatorField (by decide)
  have hparameter := hr aggregatorParameter (by decide)
  refine ⟨⟨_, by rw [ModuleParts.text, header]; simp only [List.append_assoc]; rfl⟩, ?_, fun d => ?_, ?_,
    ?_, ?_, ?_⟩
  · rw [hfeatures]
    exact pairwise_runtimeFeatures c p.bridge p.bindableProps
  · have hknown : d ∈ runtimeFeatures c p.bridge p.bindableProps → d ∈ decoratorNames := by
      rw [mem_runtimeFeatures]
      rintro (⟨rfl, _⟩ | ⟨rfl, _⟩ | ⟨rfl, _⟩ | rfl | rfl) <;> decide
    have hmark : ∀ e ∈ decoratorNames, ofString "@" ++ e ∈ frameworkWords := by decide +kernel
    rw [hfeatures]
    refine (and_iff_right_of_imp hknown).symm.trans (and_congr_right fun hd => ?_)
    rw [mem_runtimeFeatures, writes_class (hr _ (hmark d hd)), hautoinject]
    simp only [decoratorNames, List.mem_cons, List.not_mem_nil, or_false] at hd
    rcases hd with rfl | rfl | rfl | rfl | rfl <;> simp [aggregatorParameter, aggregatorField, ofString]
  · rw [himports, hparameter.construct]
    simp
  · rw [himports, hfield.writeMethod, hasWrites_iff hbridge]
    simp
  · rw [hfield.readMethod]
    simp
  · have hothers := hfield.others
    simp only [List.forall_mem_cons, List.not_mem_nil, false_implies, implies_true, and_true] at hothers ⊢
    obtain ⟨hassigned, houtputs, helements, hvalueRefs, hstate, hattached, hdetached⟩ := hothers
    refine ⟨?_, ?_, hassigned, houtputs, helements, hvalueRefs, hstate, ?_, hattached, ?_, hdetached⟩
    · rw [hfield.head]
      simp [aggregatorField, ofString]
    · rw [hfield.props]
      simp [aggregatorField, ofString]
    · rw [hfield.construct]
      simp [aggregatorField, aggregatorParameter, ofString]
    · rw [hfield.observer]
      simp [aggregatorField, ofString]

end Class

section Compiled

variable {o : CompileOptions} {c : Component}

theorem exists_bridge_of_build {a : Assembled} (h : build o .empty c = .ok a) :
    ∃ experimental c' body p, BuildsModule o c a experimental c' body p ∧
      ContextBridge.build c.context publishedCode = .ok p.bridge ∧
      a.parts.importsAggregator = p.bridge.hasWrites ∧ a.parts.autoinject = p.bridge.hasWrites ∧
      a.parts.runtimeFeatures = runtimeFeatures c' p.bridge p.bindableProps := by
  obtain ⟨m, experimental, parameters, outs, c', hcollect, hexperimental, _, houts, hlowered, hassemble⟩ :=
    build_eq_ok.mp h
  obtain ⟨channel, extra, body, found, bridge, bindable, _, ss, hchannel, hextra, hbody, hfound, hbridge,
    hbindable, _, hsections, rfl⟩ := assemble_eq_ok.mp hassemble
  have hcontext : c'.context = c.context := by rw [lowered_rest hlowered]
  exact ⟨experimental, c', body, _, ⟨hexperimental, hcollect, houts, rfl, hlowered, hbody,
    ⟨channel, extra, found, hchannel, hextra, hfound, rfl⟩, hbindable, hsections, _, rfl⟩,
    hcontext ▸ hbridge, rfl, rfl, rfl⟩

/-- A module imports each decorator and the aggregator when the generator uses them in its class, and
    has the constructor take the aggregator that its class publishes to. -/
theorem imports_what_class_uses (hplugins : o.plugins = some .empty)
    (hformat : o.format.isGiven = false) (hgiven : o.suppressed.isGiven = false) {compiled : Compiled}
    (h : compile o c = .ok compiled) :
    ∃ a experimental c' body p written, build o .empty c = .ok a ∧ compiled.text = a.parts.text ∧
      BuildsModule o c a experimental c' body p ∧
      ContextBridge.build c.context publishedCode = .ok p.bridge ∧
      classRuns a.parts c' p = .ok written ∧
      shown written.head = decorators a.parts ++ "export class " ++ a.parts.name ++ " \x7b\n" ∧
      (written.sections.map shown).filter (!·.isEmpty) = a.parts.sections ∧
      ClosesNames c.context a.parts.text a.parts.runtimeFeatures a.parts.importsAggregator written ∧
      (a.parts.importsAggregator = true ↔ c.context.writes ≠ []) := by
  obtain ⟨_, a, log, hbuild, hfinish⟩ := compile_eq_ok hplugins hgiven h
  rw [finish_unformatted hformat] at hfinish
  have htext : compiled.text = a.parts.text := (congrArg Prod.fst (Except.ok.inj hfinish)).symm
  obtain ⟨experimental, c', body, p, hbuilds, hbridge, himports, hautoinject, hfeatures⟩ :=
    exists_bridge_of_build hbuild
  have hcontext : c'.context = c.context := by rw [lowered_rest hbuilds.lowered]
  obtain ⟨written, hwritten, hhead, hsections⟩ :=
    shown_classRuns a.parts (hcontext.symm ▸ hbridge) hbuilds.sections
  refine ⟨a, experimental, c', body, p, written, hbuild, htext, hbuilds, hbridge, hwritten, ?_, hsections, ?_, ?_⟩
  · rw [hhead, shown_headRuns]
  · rw [← hcontext]
    exact closesNames_of_writesNames (fun w hw => writesNames_of_classRuns hwritten hw)
      (hcontext.symm ▸ hbridge) himports hautoinject hfeatures
  · rw [himports]
    exact hasWrites_iff hbridge

/-- A component that reads a context, and has a prop. -/
def greeting (writes : List ContextWrite) : Component where
  name := .str "Greeting"
  children := []
  state := []
  props := [.str "title"]
  propsTypeRef := .null
  defaultProps := []
  refs := []
  hooks := ⟨none, none, [], none⟩
  context := ⟨[("theme", ⟨.str "ThemeContext", .null⟩)], writes⟩
  imports := []
  exports := []
  metadata := []
  types := []
  css := .null

theorem imports_what_class_uses_greeting : ∃ (compiled : Compiled) (a : Assembled),
    compile unformatted (greeting [⟨.str "UserContext", none, .null, .null⟩]) = .ok compiled ∧
      compiled.text = a.parts.text ∧ a.parts.importsAggregator = true := by
  obtain ⟨compiled, hcompiled⟩ : ∃ compiled,
      compile unformatted (greeting [⟨.str "UserContext", none, .null, .null⟩]) = .ok compiled := ⟨_, rfl⟩
  obtain ⟨a, _, _, _, _, _, _, htext, _, _, _, _, _, _, hwrites⟩ :=
    imports_what_class_uses rfl rfl rfl hcompiled
  exact ⟨compiled, a, hcompiled, htext, hwrites.mpr (List.cons_ne_nil _ _)⟩

/-- A component that only reads contexts subscribes through an aggregator that its class does not have. -/
theorem read_aggregator_not_imported : ∃ compiled, (greeting []).validate = .ok () ∧
    compile unformatted (greeting []) = .ok compiled ∧
    occursIn "getContext() \x7b\n  this.eventAggregator.subscribe(" compiled.text = true ∧
    occursIn "private eventAggregator" compiled.text = false ∧
    occursIn "import \x7b EventAggregator" compiled.text = false :=
  ⟨_, rfl, rfl, by decide +kernel, by decide +kernel, by decide +kernel⟩

end Compiled
end ElementCompiler.Module
