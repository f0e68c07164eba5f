import ElementCompiler.Proofs.Module.Assembly
import ElementCompiler.Proofs.Module.Sections
import ElementCompiler.Proofs.Text.Lines

set_option autoImplicit false

/-!
What the generator writes itself. The text of a class is told apart into the literals of the
generator and what it takes over from the component, section by section; put together again, it is the
text of the sections.
-/

namespace ElementCompiler.Module

open Attempt Text

/-- A stretch of a class: a literal that the generator writes, or a text that it takes over from the
    component or the options, as a name or code. -/
inductive Run where
  | own (t : Text)
  | taken (t : Text)

namespace Run

def text : Run → Text
  | own t => t
  | taken t => t

/-- The text of runs one after the other. -/
def shown (runs : List Run) : Text := runs.flatMap text

def join (sep : Text) : List (List Run) → List Run
  | [] => []
  | [runs] => runs
  | runs :: rest => runs ++ own sep :: join sep rest

theorem shown_append (runs rest : List Run) : shown (runs ++ rest) = shown runs ++ shown rest :=
  List.flatMap_append

theorem shown_cons (r : Run) (runs : List Run) : shown (r :: runs) = r.text ++ shown runs := rfl

theorem shown_join (sep : Text) (lists : List (List Run)) :
    shown (join sep lists) = Text.join sep (lists.map shown) := by
  fun_induction join sep lists with
  | case1 => rfl
  | case2 runs => rfl
  | case3 runs rest hne ih =>
    obtain ⟨next, rest, rfl⟩ := List.exists_cons_of_ne_nil hne
    rw [shown_append, shown_cons, ih, List.map_cons, List.map_cons, List.map_cons, join_cons_cons,
      List.append_assoc]
    rfl

theorem mem_join {sep : Text} {lists : List (List Run)} {r : Run} (h : r ∈ join sep lists) :
    r = own sep ∨ ∃ runs ∈ lists, r ∈ runs := by
  fun_induction join sep lists with
  | case1 => cases h
  | case2 runs => exact .inr ⟨runs, List.mem_cons_self, h⟩
  | case3 runs rest _ ih =>
    rcases List.mem_append.mp h with h | h
    · exact .inr ⟨runs, List.mem_cons_self, h⟩
    · rcases List.mem_cons.mp h with rfl | h
      · exact .inl rfl
      · exact (ih h).imp_right fun ⟨runs, hruns, h⟩ => ⟨runs, List.mem_cons_of_mem _ hruns, h⟩

theorem mem_join_of_mem {sep : Text} {lists : List (List Run)} {runs : List Run} (hruns : runs ∈ lists)
    {r : Run} (h : r ∈ runs) : r ∈ join sep lists := by
  fun_induction join sep lists with
  | case1 => cases hruns
  | case2 first =>
    obtain rfl := List.mem_singleton.mp hruns
    exact h
  | case3 first rest _ ih =>
    rcases List.mem_cons.mp hruns with rfl | hruns
    · exact List.mem_append_left _ h
    · exact List.mem_append_right _ (List.mem_cons_of_mem _ (ih hruns))

end Run

open Run

section Runs

def propRuns (c : Component) (prop : Text) : Attempt (List Run) := do
  let type ← propType c.propsTypeRef prop
  let default : List Run :=
    if Entries.has c.defaultProps prop then [own " = defaultProps[\"", taken prop, own "\"]"] else []
  return [own "@bindable() ", taken prop, own ": ", taken type] ++ default ++ [own ";"]

def valueRefRuns (c : Component) (mapper : CodeMapper) (name : Text) : Attempt (List Run) := do
  match Entries.get? c.refs name with
  | none => .error .missingKey
  | some spec =>
    let type : List Run :=
      if spec.typeParameter.isGiven then [own ": ", taken spec.typeParameter.display] else []
    let initial : List Run ←
      if spec.argument.isGiven then do pure [own " = ", taken (← mapper spec.argument).display]
      else pure []
    return [own "private _", taken name] ++ type ++ initial ++ [own ";"]

def stateRuns (mapper : CodeMapper) (s : Text × StateValue) : Attempt (List Run) := do
  let code ← mapper s.2.code
  if s.2.kind.isSelfNamed then return [taken (← code.textOr .wrongKind)]
  else return [taken s.1, own " = ", taken code.display, own ";"]

def bracedRuns (head body : List Run) : List Run := head ++ own " \x7b\n" :: body ++ [own "\n\x7d"]

/-- Code of the component as the body of a block. -/
def bodyRuns (code : Text) : List Run := [taken (indentBlock 2 code)]

def parameterRuns (injectables : List Text) (bridge : ContextBridge) : List Run :=
  let aggregator : List (List Run) :=
    if bridge.hasWrites then [[own "  private eventAggregator: EventAggregator"]] else []
  let others := if injectables.isEmpty then [] else [bodyRuns (Text.join ",\n" injectables)]
  Run.join ",\n" (aggregator ++ others)

def constructorRuns (c : Component) (injectables : List Text) (bridge : ContextBridge) :
    Attempt (List Run) := do
  if injectables.isEmpty && c.hooks.onInit.isNone && !bridge.hasWrites then return []
  else
    let parameters := parameterRuns injectables bridge
    let signature : List Run :=
      if injectables.isEmpty && !bridge.hasWrites then [own "constructor()"]
      else own "constructor(\n" :: parameters ++ [own "\n)"]
    match c.hooks.onInit with
    | none => return signature ++ [own " \x7b\x7d"]
    | some code => return bracedRuns signature (bodyRuns (← code.textOr .missingOperation))

def callRuns (bridge : ContextBridge) : List (List Run) :=
  let reads : List (List Run) := if bridge.hasReads then [[own "  this.getContext();"]] else []
  let writes : List (List Run) := if bridge.hasWrites then [[own "  this.setContext();"]] else []
  reads ++ writes

def attachedRuns (c : Component) (bridge : ContextBridge) : Attempt (List Run) := do
  if c.hooks.onMount.isNone && !bridge.hasReads && !bridge.hasWrites then return []
  else
    let codes ← (c.hooks.onMount.toList.filter Json.isGiven).mapM (Json.textOr .wrongKind)
    return bracedRuns [own "attached()"] (Run.join "\n" (codes.map bodyRuns ++ callRuns bridge))

def observedRuns (updates : List UpdateHook) : List Run :=
  Run.join ", " ((Json.distinct (updates.flatMap UpdateHook.deps)).map fun d =>
    [own "\"", taken d.display, own "\""])

def observerRuns (c : Component) : Attempt (List Run) := do
  match c.hooks.onUpdate with
  | [] => return []
  | updates =>
    let codes ← updates.mapM fun u => u.code.textOr .wrongKind
    return bracedRuns (own "@computedFrom(" :: observedRuns updates ++ [own ")\nget propertyObserver()"])
      (Run.join "\n" [bodyRuns (Text.join "\n" codes), [own "  return;"]])

def detachedRuns (c : Component) : Attempt (List Run) :=
  match c.hooks.onUnmount with
  | none => .ok []
  | some code => do return bracedRuns [own "detached()"] (bodyRuns (← code.textOr .missingOperation))

def readRuns (r : Text × ContextRead) : List Run :=
  [own "this.eventAggregator.subscribe(", taken r.2.name.display,
    own ".key, (payload) => \x7b\n  this.", taken r.1, own " = payload;\n\x7d);"]

def writeRuns (w : ContextWrite) : Attempt (List Run) := do
  let value ← writtenValue publishedCode w
  return [own "this.eventAggregator.publish(", taken w.name.display, own ".key, ", taken value.display,
    own ");"]

/-- A context method, left out when it has no statements. -/
def methodRuns (name : Text) (statements : List (List Run)) : List Run :=
  if statements.isEmpty then [] else own (name ++ "() \x7b\n") :: Run.join "\n" statements ++ [own "\n\x7d"]

/-- The runs of a class: its decorators and name, then its sections. -/
structure ClassRuns where
  head : List Run
  props : List Run
  assignedImports : List Run
  outputs : List Run
  elementRefs : List Run
  valueRefs : List Run
  state : List Run
  construct : List Run
  attached : List Run
  observer : List Run
  detached : List Run
  readMethod : List Run
  writeMethod : List Run

def ClassRuns.sections (r : ClassRuns) : List (List Run) :=
  [r.props, r.assignedImports, r.outputs, r.elementRefs, r.valueRefs, r.state, r.construct, r.attached,
    r.observer, r.detached, r.readMethod, r.writeMethod]

def headRuns (p : ModuleParts) : List Run :=
  (if p.autoinject then [own "@autoinject\n"] else []) ++
    [own "@customElement(\"", taken p.elementName, own "\")\n@inlineView(`\n", taken p.view,
      own "\n`)\n", own "export class ", taken p.name, own " \x7b\n"]

/-- A class as its runs: those of its sections one for one, those of a list of declarations line by
    line. -/
def classRuns (shown : ModuleParts) (c : Component) (p : SectionParts) : Attempt ClassRuns := do
  let mapper := p.members.classCode
  let props ← p.bindableProps.mapM (propRuns c)
  let valueRefs ← p.valueRefs.mapM (valueRefRuns c mapper)
  let state ← c.state.mapM (stateRuns mapper)
  let construct ← constructorRuns c p.injectables p.bridge
  let attached ← attachedRuns c p.bridge
  let observer ← observerRuns c
  let detached ← detachedRuns c
  let writes ← c.context.writes.mapM writeRuns
  return {
    head := headRuns shown
    props := Run.join "\n" props
    assignedImports := Run.join "\n" (p.assignedImports.map fun name =>
      [taken name.display, own " = ", taken name.display, own ";"])
    outputs := Run.join "\n" (p.outputs.map fun output => [taken output, own ";"])
    elementRefs := Run.join "\n" (p.members.domRefs.map fun name => [taken name, own ": HTMLElement;"])
    valueRefs := Run.join "\n" valueRefs
    state := Run.join "\n" state
    construct, attached, observer, detached
    readMethod := methodRuns "getContext" (c.context.reads.map readRuns)
    writeMethod := methodRuns "setContext" writes }

end Runs

section Shown

variable {c : Component} {bridge : ContextBridge}

theorem exists_mapM_shown {α : Type} {f : α → Attempt Text} {g : α → Attempt (List Run)} {as : List α}
    {texts : List Text} (h : ∀ a t, f a = .ok t → ∃ runs, g a = .ok runs ∧ shown runs = t)
    (htexts : as.mapM f = .ok texts) : ∃ lists, as.mapM g = .ok lists ∧ lists.map shown = texts := by
  induction as generalizing texts with
  | nil =>
    obtain rfl := Except.ok.inj htexts
    exact ⟨[], rfl, rfl⟩
  | cons a as ih =>
    rw [List.mapM_cons] at htexts
    obtain ⟨t, ht, htexts⟩ := bind_eq_ok.mp htexts
    obtain ⟨ts, hts, htexts⟩ := bind_eq_ok.mp htexts
    obtain rfl := Except.ok.inj htexts
    obtain ⟨runs, hruns, rfl⟩ := h a t ht
    obtain ⟨lists, hlists, rfl⟩ := ih hts
    exact ⟨runs :: lists, by rw [List.mapM_cons, hruns, ok_bind, hlists, ok_bind]; rfl, rfl⟩

theorem shown_lines {α : Type} {f : α → List Run} {g : α → Text} (h : ∀ a, shown (f a) = g a)
    (as : List α) : shown (Run.join "\n" (as.map f)) = Text.join "\n" (as.map g) := by
  rw [shown_join, List.map_map]
  exact congrArg _ (List.map_congr_left fun a _ => h a)

theorem shown_propRuns {prop t : Text} (h : propDeclaration c prop = .ok t) :
    ∃ runs, propRuns c prop = .ok runs ∧ shown runs = t := by
  obtain ⟨type, htype, h⟩ := bind_eq_ok.mp h
  obtain rfl := Except.ok.inj h
  refine ⟨_, by rw [propRuns, htype, ok_bind]; rfl, ?_⟩
  cases Entries.has c.defaultProps prop <;> simp [shown, Run.text, ofString]

theorem shown_valueRefRuns {mapper : CodeMapper} {name t : Text}
    (h : valueRefDeclaration c mapper name = .ok t) :
    ∃ runs, valueRefRuns c mapper name = .ok runs ∧ shown runs = t := by
  rw [valueRefDeclaration] at h
  rw [valueRefRuns]
  cases hspec : Entries.get? c.refs name with
  | none => rw [hspec] at h; cases h
  | some spec =>
    rw [hspec] at h
    dsimp only at h ⊢
    split at h
    next hgiven =>
      obtain ⟨code, hcode, h⟩ := bind_eq_ok.mp h
      obtain rfl := Except.ok.inj h
      refine ⟨_, by rw [if_pos hgiven, hcode]; rfl, ?_⟩
      cases spec.typeParameter.isGiven <;> simp [shown, Run.text, ofString]
    next hgiven =>
      obtain rfl := Except.ok.inj h
      refine ⟨_, by rw [if_neg hgiven]; rfl, ?_⟩
      cases spec.typeParameter.isGiven <;> simp [shown, Run.text, ofString]

theorem shown_stateRuns {mapper : CodeMapper} {s : Text × StateValue} {t : Text}
    (h : (stateMember mapper " = " ";" s.1 s.2 >>= Json.textOr .wrongKind) = .ok t) :
    ∃ runs, stateRuns mapper s = .ok runs ∧ shown runs = t := by
  obtain ⟨j, hj, ht⟩ := bind_eq_ok.mp h
  obtain ⟨code, hcode, hj⟩ := bind_eq_ok.mp hj
  rw [stateRuns, hcode, ok_bind]
  split at hj
  next hself =>
    obtain rfl := Except.ok.inj hj
    refine ⟨[taken t], by rw [if_pos hself, ht]; rfl, List.append_nil t⟩
  next hself =>
    obtain rfl := Except.ok.inj hj
    obtain rfl := Except.ok.inj ht
    exact ⟨_, if_neg hself, by simp [shown, Run.text, ofString]⟩

theorem mapM_bind_of_mapM {α β γ : Type} {f : α → Attempt β} {g : β → Attempt γ} {as : List α}
    {bs : List β} {cs : List γ} (hbs : as.mapM f = .ok bs) (hcs : bs.mapM g = .ok cs) :
    as.mapM (fun a => f a >>= g) = .ok cs := by
  rw [mapM_eq_ok] at hbs hcs ⊢
  induction hbs generalizing cs with
  | nil =>
    cases hcs
    exact .nil
  | cons hb _ ih =>
    cases hcs with
    | cons hc hcs => exact .cons (bind_eq_ok.mpr ⟨_, hb, hc⟩) (ih hcs)

theorem shown_classMembers {mapper : CodeMapper} {state : Entries StateValue} {t : Text}
    (h : classMembers mapper state = .ok t) :
    ∃ lists, state.mapM (stateRuns mapper) = .ok lists ∧ shown (Run.join "\n" lists) = t := by
  obtain ⟨members, hmembers, h⟩ := bind_eq_ok.mp h
  obtain ⟨texts, htexts, h⟩ := bind_eq_ok.mp h
  obtain rfl := Except.ok.inj h
  rw [stateMembers_eq_mapM] at hmembers
  obtain ⟨lists, hlists, rfl⟩ :=
    exists_mapM_shown (fun _ _ => shown_stateRuns) (mapM_bind_of_mapM hmembers htexts)
  exact ⟨lists, hlists, shown_join "\n" lists⟩

theorem shown_bracedRuns (head : List Run) {body : List Run} {t : Text}
    (hbody : shown body = indentBlock 2 t) : shown (bracedRuns head body) = bracedBlock (shown head) t := by
  rw [bracedRuns, shown_append, shown_append, shown_cons, hbody, bracedBlock]
  simp [shown, Run.text, ofString]

theorem shown_bodyRuns (t : Text) : shown (bodyRuns t) = indentBlock 2 t := List.append_nil _

/-- The parameters that a constructor declares. -/
def constructorParameters (injectables : List Text) (bridge : ContextBridge) : List Text :=
  let aggregator : List Text :=
    if bridge.hasWrites then ["private eventAggregator: EventAggregator"] else []
  aggregator ++ injectables

theorem shown_parameterRuns (injectables : List Text) : shown (parameterRuns injectables bridge) =
    indentBlock 2 (Text.join ",\n" (constructorParameters injectables bridge)) := by
  rw [parameterRuns, constructorParameters]
  cases bridge.hasWrites with
  | false =>
    cases injectables with
    | nil => rfl
    | cons i is => exact shown_bodyRuns _
  | true =>
    cases injectables with
    | nil => decide +kernel
    | cons i is =>
      have hsplit : Text.join ",\n" (ofString "private eventAggregator: EventAggregator" :: i :: is) =
          Text.join "\n" [ofString "private eventAggregator: EventAggregator,", Text.join ",\n" (i :: is)] := by
        simp [join_cons_cons, ofString]
      have hfirst : indentBlock 2 (ofString "private eventAggregator: EventAggregator,") =
          ofString "  private eventAggregator: EventAggregator," := by decide +kernel
      simp only [if_true, List.isEmpty_cons, Bool.false_eq_true, if_false, List.cons_append, List.nil_append]
      rw [hsplit, indentBlock_join, shown_join, List.map_cons, List.map_cons, List.map_cons, List.map_cons,
        shown_bodyRuns, hfirst]
      simp [Text.join, shown, Run.text, ofString]

theorem shown_constructorRuns {injectables : List Text} {t : Text}
    (h : constructorSection c injectables bridge = .ok t) :
    ∃ runs, constructorRuns c injectables bridge = .ok runs ∧ shown runs = t := by
  rw [constructorSection] at h
  rw [constructorRuns]
  split at h
  next hnone => exact ⟨[], if_pos hnone, Except.ok.inj h⟩
  next hsome =>
    rw [if_neg hsome]
    change (match c.hooks.onInit with
      | none => _
      | some code => _ : Attempt Text) = _ at h
    have hparameters : (constructorParameters injectables bridge).isEmpty =
        (injectables.isEmpty && !bridge.hasWrites) := by
      rw [constructorParameters]
      cases bridge.hasWrites <;> simp
    have hsignature : shown (if injectables.isEmpty && !bridge.hasWrites then [own "constructor()"]
        else own "constructor(\n" :: parameterRuns injectables bridge ++ [own "\n)"]) =
          if (constructorParameters injectables bridge).isEmpty then ofString "constructor()"
          else ofString "constructor(\n" ++
            indentBlock 2 (Text.join ",\n" (constructorParameters injectables bridge)) ++ "\n)" := by
      rw [hparameters]
      split
      next => rfl
      next =>
        rw [shown_append, shown_cons, shown_parameterRuns]
        simp [shown, Run.text, ofString]
    cases hcode : c.hooks.onInit with
    | none =>
      rw [hcode] at h
      obtain rfl := Except.ok.inj h
      refine ⟨_, rfl, ?_⟩
      rw [shown_append, hsignature]
      rfl
    | some code =>
      rw [hcode] at h
      obtain ⟨s, hs, h⟩ := bind_eq_ok.mp h
      obtain rfl := Except.ok.inj h
      refine ⟨_, by dsimp only; rw [hs]; rfl, ?_⟩
      rw [shown_bracedRuns _ (shown_bodyRuns s), hsignature]
      rfl

theorem shown_callRuns (bodies : List Text) :
    Text.join "\n" (bodies ++ (callRuns bridge).map shown) = Text.join "\n" (bodies ++
      if bridge.mountCalls.isEmpty then [] else [indentBlock 2 bridge.mountCalls]) := by
  rw [callRuns, ContextBridge.mountCalls]
  cases bridge.hasReads with
  | false => cases bridge.hasWrites <;> rfl
  | true =>
    cases bridge.hasWrites with
    | false => rfl
    | true =>
      have hcalls : indentBlock 2 (Text.join "\n" [ofString "this.getContext();", ofString "this.setContext();"]) =
          Text.join "\n" [ofString "  this.getContext();", ofString "  this.setContext();"] := by decide
      have hparts : Text.join "\n" (bodies ++ [ofString "  this.getContext();", ofString "  this.setContext();"]) =
          Text.join "\n" (bodies ++ [indentBlock 2
            (Text.join "\n" [ofString "this.getContext();", ofString "this.setContext();"])]) := by
        rw [join_append_cons, join_append_cons, join_singleton, hcalls]
      exact hparts

theorem shown_attachedRuns {t : Text} (h : attachedSection c bridge = .ok t) :
    ∃ runs, attachedRuns c bridge = .ok runs ∧ shown runs = t := by
  rw [attachedSection] at h
  rw [attachedRuns]
  split at h
  next hnone => exact ⟨[], if_pos hnone, Except.ok.inj h⟩
  next hsome =>
    rw [if_neg hsome]
    obtain ⟨body, hbody, h⟩ := bind_eq_ok.mp h
    obtain rfl := Except.ok.inj h
    obtain ⟨texts, htexts, hbody⟩ := bind_eq_ok.mp hbody
    obtain rfl := Except.ok.inj hbody
    rw [List.filter_append, List.mapM_append] at htexts
    obtain ⟨codes, hcodes, htexts⟩ := bind_eq_ok.mp htexts
    obtain ⟨calls, hcalls, htexts⟩ := bind_eq_ok.mp htexts
    obtain rfl := Except.ok.inj htexts
    have hcalls : calls = if bridge.mountCalls.isEmpty then [] else [bridge.mountCalls] := by
      cases hgiven : bridge.mountCalls with
      | nil =>
        rw [hgiven] at hcalls
        exact (Except.ok.inj hcalls).symm
      | cons first rest =>
        rw [hgiven] at hcalls
        exact (Except.ok.inj hcalls).symm
    refine ⟨_, by rw [hcodes]; rfl, shown_bracedRuns _ ?_⟩
    rw [shown_join, List.map_append, shown_callRuns, indentBlock_join, List.map_append, hcalls,
      List.map_map]
    refine congrArg _ (congrArg₂ (· ++ ·) (List.map_congr_left fun t _ => shown_bodyRuns t) ?_)
    split <;> rfl

theorem shown_observerRuns {t : Text} (h : observerSection c = .ok t) :
    ∃ runs, observerRuns c = .ok runs ∧ shown runs = t := by
  rw [observerSection] at h
  rw [observerRuns]
  cases hupdates : c.hooks.onUpdate with
  | nil =>
    rw [hupdates] at h
    exact ⟨[], rfl, Except.ok.inj h⟩
  | cons u us =>
    rw [hupdates] at h
    dsimp only at h ⊢
    obtain ⟨observed, hobserved, h⟩ := bind_eq_ok.mp h
    obtain ⟨codes, hcodes, h⟩ := bind_eq_ok.mp h
    obtain rfl := Except.ok.inj h
    refine ⟨_, by rw [hcodes]; rfl, ?_⟩
    rw [observedNames] at hobserved
    split at hobserved
    next =>
      obtain rfl := Except.ok.inj hobserved
      have hobserved : shown (observedRuns (u :: us)) = Text.join ", "
          ((Json.distinct ((u :: us).flatMap UpdateHook.deps)).map fun d =>
            ofString "\"" ++ d.display ++ "\"") := by
        rw [observedRuns, shown_join, List.map_map]
        refine congrArg _ (List.map_congr_left fun d _ => ?_)
        simp [shown, Run.text]
      have hbody : shown (Run.join "\n" [bodyRuns (Text.join "\n" codes), [own "  return;"]]) =
          indentBlock 2 (Text.join "\n" codes ++ "\nreturn;") := by
        have hsplit : Text.join "\n" codes ++ "\nreturn;" =
            Text.join "\n" [Text.join "\n" codes, ofString "return;"] := by
          simp [Text.join, ofString]
        rw [hsplit, indentBlock_join, shown_join, List.map_cons, List.map_cons, shown_bodyRuns]
        rfl
      rw [shown_bracedRuns _ hbody, shown_append, shown_cons, hobserved]
      simp [shown, Run.text, ofString, bracedBlock, observerName]
    next => cases hobserved

theorem shown_detachedRuns {t : Text} (h : detachedSection c = .ok t) :
    ∃ runs, detachedRuns c = .ok runs ∧ shown runs = t := by
  rw [detachedSection] at h
  rw [detachedRuns]
  cases hcode : c.hooks.onUnmount with
  | none =>
    rw [hcode] at h
    exact ⟨[], rfl, Except.ok.inj h⟩
  | some code =>
    rw [hcode] at h
    obtain ⟨s, hs, h⟩ := bind_eq_ok.mp h
    obtain rfl := Except.ok.inj h
    exact ⟨_, by dsimp only; rw [hs]; rfl, shown_bracedRuns _ (shown_bodyRuns s)⟩

theorem shown_readRuns (r : Text × ContextRead) : shown (readRuns r) = readStatement r.1 r.2 := by
  simp [readRuns, readStatement, shown, Run.text, ofString]

theorem shown_writeRuns {w : ContextWrite} {t : Text} (h : writeStatement publishedCode w = .ok t) :
    ∃ runs, writeRuns w = .ok runs ∧ shown runs = t := by
  obtain ⟨value, hvalue, h⟩ := bind_eq_ok.mp h
  obtain rfl := Except.ok.inj h
  exact ⟨_, by rw [writeRuns, hvalue]; rfl, by simp [shown, Run.text, ofString]⟩

theorem shown_methodRuns (name : Text) {statements : List (List Run)}
    (hne : ∀ s ∈ statements, shown s ≠ []) :
    shown (methodRuns name statements) =
      if (Text.join "\n" (statements.map shown)).isEmpty then []
      else ContextBridge.method name (Text.join "\n" (statements.map shown)) := by
  rw [methodRuns]
  cases statements with
  | nil => rfl
  | cons s rest =>
    have hjoin : Text.join "\n" ((s :: rest).map shown) ≠ [] :=
      join_ne_nil List.mem_cons_self (hne s List.mem_cons_self)
    rw [if_neg (by simp), if_neg (by simpa using hjoin), shown_append, shown_cons, shown_join,
      ContextBridge.method]
    simp [shown, Run.text, ofString]

/-- The methods of a bridge show the statements that it was built from. -/
theorem shown_bridge {context : ContextSpec} (h : ContextBridge.build context publishedCode = .ok bridge) :
    shown (methodRuns "getContext" (context.reads.map readRuns)) = bridge.readMethod ∧
      ∃ writes, context.writes.mapM writeRuns = .ok writes ∧
        shown (methodRuns "setContext" writes) = bridge.writeMethod := by
  obtain ⟨statements, hstatements, h⟩ := bind_eq_ok.mp h
  obtain rfl := Except.ok.inj h
  constructor
  · have hreads : (context.reads.map readRuns).map shown =
        context.reads.map fun r => readStatement r.1 r.2 := by
      rw [List.map_map]
      exact List.map_congr_left fun r _ => shown_readRuns r
    rw [shown_methodRuns, hreads, ContextBridge.readMethod, ContextBridge.hasReads]
    · cases (Text.join "\n" (context.reads.map fun r => readStatement r.1 r.2)).isEmpty <;> rfl
    · intro runs hruns
      obtain ⟨r, _, rfl⟩ := List.mem_map.mp hruns
      simp [shown_readRuns, readStatement, ofString]
  · obtain ⟨writes, hwrites, rfl⟩ := exists_mapM_shown (fun _ _ => shown_writeRuns) hstatements
    refine ⟨writes, hwrites, ?_⟩
    rw [shown_methodRuns, ContextBridge.writeMethod, ContextBridge.hasWrites]
    · cases (Text.join "\n" (writes.map shown)).isEmpty <;> rfl
    · intro runs hruns
      obtain ⟨w, _, hw⟩ := exists_left (mapM_eq_ok.mp hwrites) runs hruns
      obtain ⟨value, _, hw⟩ := bind_eq_ok.mp hw
      obtain rfl := Except.ok.inj hw
      simp [shown, Run.text, ofString]

/-- Every section of a class is the text of its runs. -/
theorem shown_classRuns (parts : ModuleParts) {p : SectionParts} {ss : List Text}
    (hbridge : ContextBridge.build c.context publishedCode = .ok p.bridge) (h : sections c p = .ok ss) :
    ∃ written, classRuns parts c p = .ok written ∧ written.head = headRuns parts ∧
      (written.sections.map shown).filter (!·.isEmpty) = ss := by
  obtain ⟨props, valueRefs, state, construct, attached, observer, detached, hprops, hvalueRefs, hstate,
    hconstruct, hattached, hobserver, hdetached, rfl⟩ := sections_eq_ok.mp h
  obtain ⟨props, hpropRuns, rfl⟩ := exists_mapM_shown (g := propRuns c) (fun _ _ => shown_propRuns) hprops
  obtain ⟨valueRefs, hvalueRefRuns, rfl⟩ :=
    exists_mapM_shown (g := valueRefRuns c _) (fun _ _ => shown_valueRefRuns) hvalueRefs
  obtain ⟨state, hstate', rfl⟩ := shown_classMembers hstate
  obtain ⟨construct, hconstruct', rfl⟩ := shown_constructorRuns hconstruct
  obtain ⟨attached, hattached', rfl⟩ := shown_attachedRuns hattached
  obtain ⟨observer, hobserver', rfl⟩ := shown_observerRuns hobserver
  obtain ⟨detached, hdetached', rfl⟩ := shown_detachedRuns hdetached
  obtain ⟨hreads, writes, hwrites, hpublished⟩ := shown_bridge hbridge
  refine ⟨_, by
    rw [classRuns, hpropRuns, ok_bind, hvalueRefRuns, ok_bind, hstate', ok_bind, hconstruct', ok_bind,
      hattached', ok_bind, hobserver', ok_bind, hdetached', ok_bind, hwrites]
    rfl, rfl, ?_⟩
  rw [← List.filter_append, ← List.filter_append, ← hreads, ← hpublished, ← shown_join, ← shown_join,
    ← shown_lines (f := fun name : Key => [taken name.display, own " = ", taken name.display, own ";"])
      fun name => by simp [shown, Run.text, ofString],
    ← shown_lines (f := fun output : Text => [taken output, own ";"]) fun output => by
      simp [shown, Run.text],
    ← shown_lines (f := fun name : Text => [taken name, own ": HTMLElement;"]) fun name => by
      simp [shown, Run.text]]
  rfl

theorem shown_headRuns (p : ModuleParts) :
    shown (headRuns p) = decorators p ++ "export class " ++ p.name ++ " \x7b\n" := by
  rw [headRuns, decorators]
  cases p.autoinject <;> simp [shown, Run.text, ofString]

end Shown
end ElementCompiler.Module
