import ElementCompiler.Proofs.Module.Props
import ElementCompiler.Proofs.Module.StateMembers

set_option autoImplicit false

/-!
The lines of a class that declare its members. Its props, the imports that it shows, its outputs, its
refs and its state are written one line for each name, section by section.
-/

namespace ElementCompiler

open Attempt Snippet Text

namespace Module

/-- The line declares a field: its name is the word behind what may stand in front of a field. -/
def DeclaresField (name line : Text) : Prop :=
  ∃ lead ∈ [ofString "", "@bindable() ", "private "], ∃ rest,
    line = lead ++ (name ++ rest) ∧ headIs continuesName rest = false

/-- The line declares an output, in the shape that outputs are given. -/
def DeclaresOutput (experimental : ExperimentalOptions) (c : Component) (name line : Text) : Prop :=
  ∃ shape out, experimental.outputs = some shape ∧ shape c name = .ok out ∧ line = out ++ ";"

/-- The member is an entry of the state: a field, or a method or getter that is written as its code
    has it. -/
def DeclaresState (m : Members) (entry : Text × StateValue) (member : Text × Text) : Prop :=
  member.1 = entry.1 ∧ (entry.2.kind.isSelfNamed = false → DeclaresField member.1 member.2) ∧
    EmitsHead m entry member.2

/-- The lines of a class that declare members, by section, each behind the name that it declares. -/
structure MemberLines where
  props : Entries Text
  imports : Entries Text
  outputs : Entries Text
  elements : Entries Text
  values : Entries Text
  state : Entries Text

namespace MemberLines

def groups (f : MemberLines) : List (Entries Text) :=
  [f.props, f.imports, f.outputs, f.elements, f.values, f.state]

def names (f : MemberLines) : List Text := (f.groups.map Entries.keys).flatten

def sections (f : MemberLines) : List Text :=
  (f.groups.map fun es => join "\n" (Entries.values es)).filter fun s => !s.isEmpty

/-- The lines are those of the sections: every name has its line, and every line declares its name. -/
structure Fill (f : MemberLines) (experimental : ExperimentalOptions) (source c : Component)
    (p : SectionParts) : Prop where
  props : Entries.keys f.props = p.bindableProps
  imports : (Entries.keys f.imports).map Key.text = p.assignedImports
  outputs : Entries.keys f.outputs = p.members.outputVars
  elements : Entries.keys f.elements = p.members.domRefs
  values : Entries.keys f.values = p.valueRefs.map fun name : Text => "_" ++ name
  fields : ∀ e ∈ f.props ++ f.imports ++ f.elements ++ f.values, DeclaresField e.1 e.2
  shaped : ∀ e ∈ f.outputs, DeclaresOutput experimental source e.1 e.2
  state : List.Forall₂ (DeclaresState p.members) c.state f.state

end MemberLines

section Lines

variable {c : Component}

/-- What is written line by line are entries: each line behind its name. -/
theorem exists_entries {α : Type} {R : α → Text → Prop} (name : α → Text) {as : List α}
    {lines : List Text} (h : List.Forall₂ R as lines) : ∃ es : Entries Text,
      Entries.keys es = as.map name ∧ Entries.values es = lines ∧
        List.Forall₂ (fun a e => e.1 = name a ∧ R a e.2) as es := by
  induction h with
  | nil => exact ⟨[], rfl, rfl, .nil⟩
  | @cons a line as lines ha _ ih =>
    obtain ⟨es, hkeys, hvalues, hes⟩ := ih
    refine ⟨(name a, line) :: es, ?_, ?_, .cons ⟨rfl, ha⟩ hes⟩
    · rw [List.map_cons, ← hkeys]
      rfl
    · rw [← hvalues]
      rfl

theorem declaresField_prop {name line : Text} (h : propDeclaration c name = .ok line) :
    DeclaresField name line := by
  obtain ⟨type, _, h⟩ := bind_eq_ok.mp h
  generalize hdefault : (if Entries.has c.defaultProps name = true then _ else _ : Text) = default at h
  obtain rfl := Except.ok.inj h
  exact ⟨"@bindable() ", by simp, ": " ++ (type ++ (default ++ ";")), by simp, rfl⟩

theorem declaresField_value {mapper : CodeMapper} {name line : Text}
    (h : valueRefDeclaration c mapper name = .ok line) : DeclaresField ("_" ++ name) line := by
  rw [valueRefDeclaration] at h
  split at h
  next => cases h
  next spec _ =>
    have hline : ∃ initial : Text, (initial = [] ∨ ∃ value, initial = " = " ++ value) ∧
        line = "private _" ++ name ++
          (if spec.typeParameter.isGiven then ": " ++ spec.typeParameter.display else "") ++
            initial ++ ";" := by
      dsimp only at h
      split at h
      next =>
        obtain ⟨value, _, h⟩ := bind_eq_ok.mp h
        exact ⟨_, .inr ⟨value.display, rfl⟩, (Except.ok.inj h).symm⟩
      next => exact ⟨_, .inl rfl, (Except.ok.inj h).symm⟩
    obtain ⟨initial, hinitial, rfl⟩ := hline
    refine ⟨"private ", by simp, _, by simp only [List.append_assoc]; rfl, ?_⟩
    split
    next => rfl
    next => rcases hinitial with rfl | ⟨value, rfl⟩ <;> rfl

theorem declaresState_of_stateMember {m : Members} (hnames : ∀ n ∈ m.names, IsName n)
    {entry : Text × StateValue} (hcode : entry.2.code.IsText) (hname : entry.1 ∈ m.names)
    {line : Text} (h : stateMember m.classCode " = " ";" entry.1 entry.2 = .ok (.str line)) :
    DeclaresState m entry (entry.1, line) := by
  obtain ⟨emitted, hemitted, hhead⟩ := exists_stateMember hnames hcode hname
  obtain rfl := Json.str.inj (Except.ok.inj (hemitted.symm.trans h))
  refine ⟨rfl, fun hself => ?_, hhead⟩
  obtain ⟨code, _, hline⟩ := bind_eq_ok.mp h
  rw [hself] at hline
  obtain rfl := Json.str.inj (Except.ok.inj hline)
  exact ⟨[], by simp [ofString], " = " ++ (code.display ++ ";"), by simp, rfl⟩

/-- The state section is a line for each entry. -/
theorem exists_stateLines {m : Members} (hnames : ∀ n ∈ m.names, IsName n)
    (hcode : ∀ entry ∈ c.state, entry.2.code.IsText) (hstate : ∀ entry ∈ c.state, entry.1 ∈ m.names)
    {text : Text} (h : classMembers m.classCode c.state = .ok text) : ∃ es : Entries Text,
      List.Forall₂ (DeclaresState m) c.state es ∧ text = join "\n" (Entries.values es) := by
  obtain ⟨lines, hlines, _⟩ := exists_stateMembers_emitting hnames hcode hstate
  obtain rfl := Except.ok.inj (h.symm.trans (classMembers_texts hlines))
  rw [stateMembers_eq_ok, List.forall₂_map_right_iff] at hlines
  obtain ⟨es, _, hvalues, hes⟩ := exists_entries Prod.fst hlines
  refine ⟨es, ?_, by rw [hvalues]⟩
  rw [List.forall₂_iff_zip] at hes ⊢
  refine ⟨hes.1, fun {entry e} hmem => ?_⟩
  obtain ⟨hname, hmember⟩ := hes.2 hmem
  have hentry := (List.of_mem_zip hmem).1
  have hdeclares := declaresState_of_stateMember hnames (hcode entry hentry) (hstate entry hentry) hmember
  rwa [← hname] at hdeclares

theorem outputLines {experimental : ExperimentalOptions} {m : Members} {outs : List Text}
    (h : outputs experimental c m = .ok outs)
    (hvars : experimental.outputs = none → m.outputVars = []) :
    List.Forall₂ (DeclaresOutput experimental c) m.outputVars
      (outs.map fun output : Text => output ++ ";") := by
  rw [outputs] at h
  split at h
  next shape hshape =>
    rw [List.forall₂_map_right_iff]
    exact (mapM_eq_ok.mp h).imp fun _ out hout => ⟨shape, out, hshape, hout, rfl⟩
  next hnone =>
    obtain rfl := Except.ok.inj h
    rw [hvars hnone]
    exact .nil

/-- The sections of a class begin with the lines that declare its members. -/
theorem exists_memberLines {experimental : ExperimentalOptions} {source : Component}
    {p : SectionParts} {fields ss : List Text} (h : sections c p = .ok ss)
    (hfields : p.assignedImports = fields.map .text)
    (houts : outputs experimental source p.members = .ok p.outputs)
    (hvars : experimental.outputs = none → p.members.outputVars = [])
    (hnames : ∀ n ∈ p.members.names, IsName n) (hcode : ∀ entry ∈ c.state, entry.2.code.IsText)
    (hstate : ∀ entry ∈ c.state, entry.1 ∈ p.members.names) :
    ∃ f : MemberLines, f.Fill experimental source c p ∧ f.sections <+: ss := by
  obtain ⟨props, valueRefs, state, _, _, _, _, hprops, hvalueRefs, hstateText, _, _, _, _, rfl⟩ :=
    sections_eq_ok.mp h
  obtain ⟨bound, hboundKeys, rfl, hbound⟩ := exists_entries id (mapM_eq_ok.mp hprops)
  obtain ⟨values, hvalueKeys, rfl, hvalues⟩ :=
    exists_entries (fun name : Text => "_" ++ name) (mapM_eq_ok.mp hvalueRefs)
  obtain ⟨members, hmembers, rfl⟩ := exists_stateLines hnames hcode hstate hstateText
  obtain ⟨outs, houtKeys, houtLines, houtputs⟩ := exists_entries id (outputLines houts hvars)
  refine ⟨⟨bound, fields.map fun name => (name, name ++ " = " ++ name ++ ";"), outs,
    p.members.domRefs.map fun name => (name, name ++ ": HTMLElement;"), values, members⟩, ?_, ?_⟩
  · constructor
    case props => simpa using hboundKeys
    case imports => simp [Entries.keys, hfields, Function.comp_def]
    case outputs => simpa using houtKeys
    case elements => simp [Entries.keys, Function.comp_def]
    case values => exact hvalueKeys
    case fields =>
      simp only [List.forall_mem_append]
      refine ⟨⟨⟨fun e he => ?_, fun e he => ?_⟩, fun e he => ?_⟩, fun e he => ?_⟩
      · obtain ⟨name, _, hname, hline⟩ := exists_left hbound e he
        rw [hname]
        exact declaresField_prop hline
      · obtain ⟨name, _, rfl⟩ := List.mem_map.mp he
        exact ⟨[], by simp [ofString], " = " ++ (name ++ ";"), by simp, rfl⟩
      · obtain ⟨name, _, rfl⟩ := List.mem_map.mp he
        exact ⟨[], by simp [ofString], ": HTMLElement;", rfl, rfl⟩
      · obtain ⟨name, _, hname, hline⟩ := exists_left hvalues e he
        rw [hname]
        exact declaresField_value hline
    case shaped =>
      intro e he
      obtain ⟨name, _, hname, hline⟩ := exists_left houtputs e he
      rw [hname]
      exact hline
    case state => exact hmembers
  · refine ⟨_, congrArg (· ++ _) ?_⟩
    rw [← List.filter_append, MemberLines.sections]
    refine congrArg _ ?_
    simp only [MemberLines.groups, List.map_cons, List.map_nil, hfields, ← houtLines, Entries.values,
      List.map_map]
    rfl

theorem MemberLines.Fill.names_eq {experimental : ExperimentalOptions} {f : MemberLines} {source : Component} {p : SectionParts}
    {fields : List Text} (h : MemberLines.Fill f experimental source c p)
    (hfields : p.assignedImports = fields.map .text) : f.names =
      [p.bindableProps, fields, p.members.outputVars, p.members.domRefs,
        p.valueRefs.map fun name : Text => "_" ++ name, Entries.keys c.state].flatten := by
  have himports : Entries.keys f.imports = fields :=
    List.map_injective_iff.mpr (fun _ _ => Key.text.inj) (h.imports.trans hfields)
  have hstate : Entries.keys f.state = Entries.keys c.state := by
    have hsame : List.Forall₂ (fun entry member => entry.1 = member.1) c.state f.state :=
      h.state.imp fun _ _ hmember => hmember.1.symm
    rw [← List.forall₂_map_right_iff (f := Prod.fst), ← List.forall₂_map_left_iff (f := Prod.fst),
      List.forall₂_eq_eq_eq] at hsame
    exact hsame.symm
  simp only [MemberLines.names, MemberLines.groups, List.map_cons, List.map_nil, h.props, himports,
    h.outputs, h.elements, h.values, hstate]

end Lines

end Module
end ElementCompiler
