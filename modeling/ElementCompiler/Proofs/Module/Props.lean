import ElementCompiler.Proofs.Component.Props
import ElementCompiler.Proofs.Module.Compile

set_option autoImplicit false

/-!
The props of a component in its class. Every prop that the code reads becomes a bindable field or an
output, the children and the slots apart.
-/

namespace ElementCompiler.Module

open Attempt Text

/-- One of the sections has the line. -/
def HasLine (ss : List Text) (line : Text) : Prop :=
  ∃ before after, join "\n" (before ++ line :: after) ∈ ss

section Lines

variable {ss lines : List Text} {line : Text}

/-- A section that is not left out has its lines. -/
theorem hasLine_of_mem (h : line ∈ lines) (hne : line ≠ [])
    (hss : join "\n" lines ≠ [] → join "\n" lines ∈ ss) : HasLine ss line := by
  have hmem := hss (join_ne_nil h hne)
  obtain ⟨before, after, rfl⟩ := List.append_of_mem h
  exact ⟨before, after, hmem⟩

end Lines

/-- The fields of the class that stand on lines of their own. -/
structure HasFields (c : Component) (p : SectionParts) (ss : List Text) : Prop where
  props : ∀ x ∈ p.bindableProps, ∃ line, propDeclaration c x = .ok line ∧ HasLine ss line
  outputs : ∀ out ∈ p.outputs, HasLine ss (out ++ ";")
  elements : ∀ name ∈ p.members.domRefs, HasLine ss (name ++ ": HTMLElement;")

theorem hasFields_of_sections {c : Component} {p : SectionParts} {ss : List Text}
    (h : sections c p = .ok ss) : HasFields c p ss := by
  obtain ⟨props, valueRefs, state, construct, attached, observer, detached, hprops, _, _, _, _, _, _,
    rfl⟩ := sections_eq_ok.mp h
  refine ⟨fun x hx => ?_, fun out hout => ?_, fun name hname => ?_⟩
  · obtain ⟨line, hline, hdeclared⟩ := exists_right (mapM_eq_ok.mp hprops) x hx
    refine ⟨line, hdeclared, hasLine_of_mem hline ?_ fun hne => ?_⟩
    · obtain ⟨type, _, htype⟩ := bind_eq_ok.mp hdeclared
      obtain rfl := Except.ok.inj htype
      simp [ofString]
    · simp [hne]
  · have hmem := List.mem_map_of_mem (f := fun output : Text => output ++ ";") hout
    exact hasLine_of_mem hmem (by simp [ofString]) fun hne => by simp [hne]
  · have hmem := List.mem_map_of_mem (f := fun name : Text => name ++ ": HTMLElement;") hname
    exact hasLine_of_mem hmem (by simp [ofString]) fun hne => by simp [hne]

section Collected

variable {o : CompileOptions} {c : Component} {m : Members} {names : List Text}

/-- The props that become outputs, if there is a shape for outputs. -/
def outputsAmong (experimental : ExperimentalOptions) (names : List Text) : List Text :=
  if experimental.outputs.isSome then names.filter isOutputName else []

theorem outputNames_texts (names : List Text) :
    outputNames (names.map .str) = .ok (names.filter isOutputName) := by
  induction names with
  | nil => rfl
  | cons name names ih =>
    rw [List.map_cons, outputNames, Json.textOr_str, ok_bind, ih, ok_bind, List.filter_cons]
    rfl

theorem filter_strs (p : Text → Bool) (q : Json → Bool) (h : ∀ s, q (.str s) = p s) :
    (names.map Json.str).filter q = (names.filter p).map .str := by
  rw [List.filter_map]
  exact congrArg _ (List.filter_congr fun s _ => h s)

/-- The members of a component whose props are texts. -/
theorem collect_texts (hnames : c.propNames = .ok (names.map .str))
    (h : Members.collect o c = .ok m) : ∃ experimental, experimentalOf o = .ok experimental ∧
      c.domRefs = .ok m.domRefs ∧
      m.outputVars = outputsAmong experimental (names.filter (· != childrenProp)) ∧
      m.props = ((names.filter (· != childrenProp)).filter
        fun x => !m.outputVars.contains x).map .str := by
  have hchildren : (names.map Json.str).filter (fun p => !p.isText childrenProp) =
      (names.filter (· != childrenProp)).map .str := filter_strs _ _ fun _ => rfl
  rw [Members.collect, hnames, ok_bind, hchildren] at h
  obtain ⟨experimental, hexperimental, h⟩ := bind_eq_ok.mp h
  have hparts : ∃ domRefs, c.domRefs = .ok domRefs ∧ m.domRefs = domRefs ∧
      m.outputVars = outputsAmong experimental (names.filter (· != childrenProp)) ∧
      m.props = ((names.filter (· != childrenProp)).map Json.str).filter
        fun p => !m.outputVars.any p.isText := by
    rw [outputsAmong]
    by_cases hsome : experimental.outputs.isSome = true
    · rw [if_pos hsome, outputNames_texts, ok_bind] at h
      obtain ⟨domRefs, hdomRefs, h⟩ := bind_eq_ok.mp h
      obtain rfl := Except.ok.inj h
      exact ⟨domRefs, hdomRefs, rfl, (if_pos hsome).symm, rfl⟩
    · rw [if_neg hsome] at h
      obtain ⟨_, hnone, h⟩ := bind_eq_ok.mp h
      obtain rfl := Except.ok.inj hnone
      obtain ⟨domRefs, hdomRefs, h⟩ := bind_eq_ok.mp h
      obtain rfl := Except.ok.inj h
      exact ⟨domRefs, hdomRefs, rfl, (if_neg hsome).symm, rfl⟩
  obtain ⟨_, hdomRefs, rfl, houtputVars, hprops⟩ := hparts
  refine ⟨experimental, hexperimental, hdomRefs, houtputVars, hprops.trans (filter_strs _ _ fun s => ?_)⟩
  rw [List.contains_eq_any_beq]
  rfl

theorem collect_names (h : Members.collect o c = .ok m) :
    m.contextVars = Entries.keys c.context.reads ∧ m.stateVars = Entries.keys c.state ∧
      c.domRefs = .ok m.domRefs := by
  obtain ⟨props, _, h⟩ := bind_eq_ok.mp h
  obtain ⟨_, _, h⟩ := bind_eq_ok.mp h
  split at h
  all_goals
    obtain ⟨outputVars, _, h⟩ := bind_eq_ok.mp h
    obtain ⟨domRefs, hdomRefs, h⟩ := bind_eq_ok.mp h
    obtain rfl := Except.ok.inj h
    exact ⟨rfl, rfl, hdomRefs⟩

theorem bindableProps_texts (names spreads : List Text) :
    bindableProps (names.map .str) spreads =
      .ok ((names ++ spreads).eraseDups.filter fun p => !Markup.isSlotKey p && p != childrenProp) := by
  rw [bindableProps, mapM_textOr_strs]
  rfl

end Collected

/-- The prop is a bindable field of the class. -/
def IsBindable (c : Component) (ss : List Text) (x : Text) : Prop :=
  ∃ line, propDeclaration c x = .ok line ∧ HasLine ss line

/-- The prop is declared in the class: as an output when there is a shape for outputs and it is named
    like a handler, else as a bindable field. -/
def IsDeclared (c : Component) (experimental : ExperimentalOptions) (ss : List Text) (x : Text) :
    Prop :=
  match experimental.outputs with
  | some shape =>
    if isOutputName x then ∃ out, shape c x = .ok out ∧ HasLine ss (out ++ ";")
    else IsBindable c ss x
  | none => IsBindable c ss x

section Declared

variable {o : CompileOptions} {c : Component} {names : List Text}

theorem propDeclaration_lowered {m : Members} {c' : Component} (h : lowered .empty m c = .ok c')
    (x : Text) : propDeclaration c' x = propDeclaration c x := by
  rw [lowered_rest h]
  rfl

/-- Every prop is declared in the module, the children and the slots apart. -/
theorem isDeclared_of_build (hnames : c.propNames = .ok (names.map .str)) {a : Assembled}
    (h : build o .empty c = .ok a) : ∃ experimental, experimentalOf o = .ok experimental ∧
      ∀ x ∈ names, x ≠ childrenProp → Markup.isSlotKey x = false →
        IsDeclared c experimental a.parts.sections x := by
  obtain ⟨experimental, c', body, p, hbuilds⟩ := exists_buildsModule h
  obtain ⟨experimental', hexperimental', _, houtputVars, hprops⟩ := collect_texts hnames hbuilds.collect
  obtain rfl := Except.ok.inj (hbuilds.options.symm.trans hexperimental')
  have hfields := hasFields_of_sections hbuilds.sections
  have houts := hbuilds.outputs
  refine ⟨experimental, hbuilds.options, fun x hx hchildren hslot => ?_⟩
  have hmem : x ∈ names.filter (· != childrenProp) := List.mem_filter.mpr ⟨hx, by simpa using hchildren⟩
  have hfield : x ∉ p.members.outputVars → IsBindable c a.parts.sections x := by
    intro hnot
    have hbindable := hbuilds.bindable
    rw [hprops, bindableProps_texts] at hbindable
    have hfree : x ∈ (names.filter (· != childrenProp)).filter fun x => !p.members.outputVars.contains x :=
      List.mem_filter.mpr ⟨hmem, by simpa using hnot⟩
    obtain ⟨line, hline, hhas⟩ := hfields.props x (by
      rw [← Except.ok.inj hbindable]
      exact List.mem_filter.mpr
        ⟨List.mem_eraseDups.mpr (List.mem_append_left _ hfree), by simp [hslot, hchildren]⟩)
    exact ⟨line, propDeclaration_lowered hbuilds.lowered x ▸ hline, hhas⟩
  rw [IsDeclared]
  rw [outputsAmong] at houtputVars
  rw [outputs] at houts
  split
  next shape hshape =>
    rw [hshape] at houtputVars houts
    have hmapped := mapM_eq_ok.mp houts
    split
    next hname =>
      have hout : x ∈ p.members.outputVars := by
        rw [houtputVars]
        exact List.mem_filter.mpr ⟨hmem, hname⟩
      obtain ⟨out, hmem, hshaped⟩ := exists_right hmapped x hout
      exact ⟨out, hshaped, hfields.outputs out hmem⟩
    next hname =>
      refine hfield ?_
      rw [houtputVars]
      exact fun hmem => hname (List.mem_filter.mp hmem).2
  next hnone =>
    refine hfield ?_
    rw [houtputVars, hnone]
    exact List.not_mem_nil

/-- The props of a component are the declared ones, each once and in their order, and then those that
    its code reads; whatever stripping rewrites from behind `props.` is among them. In a module that
    is compiled without plugins each of them is declared, the children and the slots apart. A valid
    component whose parts have the declared shape is compiled when its refs have plain names. -/
theorem read_props_declared {declared codes : List Text} (hprops : c.props = declared.map .str)
    (hcodes : c.snippets = codes.map fun s => some (.str s)) :
    ∃ names : List Text, c.propNames = .ok (names.map .str) ∧ names.Nodup ∧
      declared.eraseDups <+: names ∧
      (∀ code ∈ codes, ∀ x, Snippet.Strips code x → x ∈ names) ∧
      (∀ o compiled, o.plugins = some .empty → o.suppressed.isGiven = false →
        compile o c = .ok compiled → ∃ a log experimental, build o .empty c = .ok a ∧
          finish o .empty a.parts.text = .ok (compiled.text, log) ∧
          experimentalOf o = .ok experimental ∧
          ∀ code ∈ codes, ∀ x, Snippet.Strips code x → x ≠ childrenProp →
            Markup.isSlotKey x = false → IsDeclared c experimental a.parts.sections x) ∧
      ∀ o, IsPlain o → c.IsTyped → c.validate = .ok () →
        (∀ domRefs, c.domRefs = .ok domRefs →
          ∀ f ∈ c.refFields domRefs, CodePoint.char '\\' ∉ f.1) →
        ∃ compiled, compile o c = .ok compiled := by
  have hnames := Component.propNames_texts hprops hcodes
  have hread : ∀ code ∈ codes, ∀ x, Snippet.Strips code x →
      x ∈ (declared ++ codes.flatMap Component.propReads).eraseDups := by
    intro code hcode x hx
    rw [List.mem_eraseDups]
    exact List.mem_append_right _
      (List.mem_flatMap.mpr ⟨code, hcode, Snippet.mem_propReads_of_strips hx⟩)
  refine ⟨_, hnames, nodup_eraseDups _, ?_, hread, ?_, fun o ho => exists_compile_of_plainNames ho⟩
  · rw [List.eraseDups_append]
    exact List.prefix_append _ _
  · intro o compiled hplugins hgiven hcompiled
    obtain ⟨_, a, log, hbuild, hfinish⟩ := compile_eq_ok hplugins hgiven hcompiled
    obtain ⟨experimental, hexperimental, hall⟩ := isDeclared_of_build hnames hbuild
    exact ⟨a, log, experimental, hbuild, hfinish, hexperimental, fun code hcode x hx =>
      hall x (hread code hcode x hx)⟩

end Declared

/-- A component that reads a prop in the binding of an else branch, and declares another twice. -/
def notice : Component where
  name := .str "Notice"
  children := [⟨.str "Show", [], [("when", some (.ofCode (.str "props.open") .normal))], [], .empty,
    some ⟨.str "p", [], [("title", some (.ofCode (.str "state.props.x + props.label") .normal))], [],
      .empty, none, []⟩, []⟩]
  state := []
  props := ["open", "size", "open"].map fun s => .str (ofString s)
  propsTypeRef := .null
  defaultProps := []
  refs := []
  hooks := ⟨none, none, [], none⟩
  context := ⟨[], []⟩
  imports := []
  exports := []
  metadata := []
  types := []
  css := .null

theorem notice_isTyped : notice.IsTyped where
  code := {
    hooks := by rintro _ ⟨⟩
    deps := by rintro _ ⟨⟩
    state := by rintro _ ⟨⟩
    refs := by rintro _ ⟨⟩
    nodes := by
      refine List.forall_mem_cons.mpr ⟨⟨⟨_, rfl⟩, by rintro _ ⟨⟩, ?_⟩,
        List.forall_mem_singleton.mpr ⟨⟨_, rfl⟩, by rintro _ ⟨⟩, ?_⟩⟩
      all_goals exact List.forall_mem_singleton.mpr ⟨_, rfl, ⟨_, rfl⟩, .inr ⟨_, rfl⟩, .inl rfl⟩ }
  writes := by rintro _ ⟨⟩
  props := by
    intro p hp
    obtain ⟨s, _, rfl⟩ := List.mem_map.mp hp
    exact ⟨_, rfl⟩
  propsType := .inl rfl
  refs := by rintro _ ⟨⟩
  channel := ⟨by rintro _ ⟨⟩, by rintro _ ⟨⟩⟩
  aurelia := by rintro _ ⟨⟩

theorem read_props_declared_notice : ∃ compiled a, compile (formattedBy none) notice = .ok compiled ∧
    build (formattedBy none) .empty notice = .ok a ∧
    HasLine a.parts.sections "@bindable() label: any;" := by
  have hread : Snippet.Strips "state.props.x + props.label" "label" := by
    have hquote : ∀ c ∈ ofString "state.props.x + props.label", Snippet.isNotQuote c = true := by
      decide
    exact (Snippet.strips_of_noQuote (by decide) hquote).mpr (by decide)
  have hprops : notice.props = (["open", "size", "open"].map ofString).map .str := rfl
  have hcodes : notice.snippets =
      (["props.open", "state.props.x + props.label"].map ofString).map fun s => some (.str s) := rfl
  obtain ⟨_, _, _, _, _, hdeclared, hcompiles⟩ := read_props_declared hprops hcodes
  have hnone : notice.domRefs = .ok [] := rfl
  obtain ⟨compiled, hcompiled⟩ := hcompiles _ (isPlain_formattedBy none) notice_isTyped rfl
    fun domRefs hdomRefs => by
      obtain rfl := Except.ok.inj (hnone.symm.trans hdomRefs)
      rintro _ ⟨⟩
  obtain ⟨a, _, _, hbuild, _, hexperimental, hall⟩ := hdeclared _ compiled rfl rfl hcompiled
  obtain rfl := Except.ok.inj hexperimental
  obtain ⟨line, hline, hhas⟩ := hall _ (by decide) _ hread (by decide) rfl
  obtain rfl : _ = line := Except.ok.inj hline
  exact ⟨compiled, a, hcompiled, hbuild, hhas⟩

end ElementCompiler.Module
