import ElementCompiler.Proofs.Module.AssignedImports
import ElementCompiler.Proofs.Module.ClassSnippets
import ElementCompiler.Proofs.Module.LoweredNodes
import ElementCompiler.Proofs.Module.MemberLines
import ElementCompiler.Proofs.Module.Usage
import Mathlib.Data.List.Nodup

set_option autoImplicit false

/-!
The members of a class by name. No two lines of the class declare the same member when the component
names distinct things distinctly and spreads none of them.
-/

namespace ElementCompiler

open Attempt Snippet Text

namespace Component

/-- The names that a component gives, by what it gives them to: props, state, refs, imports, exports
    and contexts that it reads. -/
def givenNames (c : Component) (props domRefs : List Text) : List (List Text) :=
  [props, Entries.keys c.state, (c.refFields domRefs).map Prod.fst, c.importedNames,
    Entries.keys c.exports, Entries.keys c.context.reads]

/-- The fields of the refs that only hold values. -/
def valueFields (c : Component) (domRefs : List Text) : List Text :=
  (c.valueRefs domRefs).map fun name => "_" ++ name

/-- The component gives each name to one thing, no field of a value takes one of them, and what is
    spread is a prop that is no output, or nothing else in the class. -/
structure HasDistinctNames (c : Component) (props domRefs outs : List Text) : Prop where
  isName : ∀ x ∈ (c.givenNames props domRefs).flatten, IsName x
  nodup : (c.givenNames props domRefs).flatten.Nodup
  valueFields : ∀ x ∈ c.valueFields domRefs, x ∉ (c.givenNames props domRefs).flatten
  spreads : ∀ n ∈ c.nodes, ∀ t ∈ Markup.spreadTargets n, t ∉ c.valueFields domRefs ∧
    (t ∈ (c.givenNames props domRefs).flatten → t ∈ props ∧ t ∉ outs)

section Distinct

variable {c : Component} {props domRefs outs : List Text}

theorem nodup_valueFields (hkeys : (Entries.keys c.refs).Nodup) : (c.valueFields domRefs).Nodup :=
  (hkeys.filter _).map List.cons_injective

/-- The place of the first list with the name: what the name was given to. -/
def ownerIn (lists : List (List Text)) (name : Text) : Nat :=
  lists.findIdx fun names => names.contains name

theorem ownerIn_eq {lists : List (List Text)} (h : lists.flatten.Nodup) {i : Nat} {names : List Text}
    (hi : lists[i]? = some names) {name : Text} (hname : name ∈ names) : ownerIn lists name = i := by
  obtain ⟨hlt, rfl⟩ := List.getElem?_eq_some_iff.mp hi
  have hdisjoint := List.pairwise_iff_getElem.mp (List.nodup_flatten.mp h).2
  rw [ownerIn, List.findIdx_eq hlt]
  refine ⟨List.contains_iff_mem.mpr hname, fun j hj => ?_⟩
  rw [Bool.eq_false_iff, ne_eq, List.contains_iff_mem]
  exact fun hmem => hdisjoint j i (Nat.lt_trans hj hlt) hlt hj hmem hname

theorem ownerIn_eq_length {lists : List (List Text)} {name : Text} (h : name ∉ lists.flatten) :
    ownerIn lists name = lists.length := by
  rw [ownerIn, List.findIdx_eq_length]
  intro names hnames
  rw [Bool.eq_false_iff, ne_eq, List.contains_iff_mem]
  exact fun hname => h (List.mem_flatten_of_mem hnames hname)

/-- What the sections of a class declare are distinct names, when its props come from the props and the
    spreads of the component, and the names that it shows from its imports and exports. -/
theorem HasDistinctNames.nodup_members (h : c.HasDistinctNames props domRefs outs)
    {bindable fields : List Text} (hbindable : bindable.Nodup) (hfields : fields.Nodup)
    (houts : outs.Nodup) (hdomRefs : domRefs.Nodup)
    (hbound : ∀ x ∈ bindable, (x ∈ props ∧ x ∉ outs) ∨ ∃ n ∈ c.nodes, x ∈ Markup.spreadTargets n)
    (hassigned : ∀ x ∈ fields, x ∈ c.importedNames ∨ x ∈ Entries.keys c.exports)
    (houtputs : ∀ x ∈ outs, x ∈ props) :
    [bindable, fields, outs, domRefs, c.valueFields domRefs, Entries.keys c.state].flatten.Nodup := by
  have hparts := (List.nodup_flatten.mp h.nodup).1
  have hstate : (Entries.keys c.state).Nodup := hparts _ (by simp [givenNames])
  have hrefs : (Entries.keys c.refs).Nodup := by
    have hall : ((c.refFields domRefs).map Prod.fst).Nodup := hparts _ (by simp [givenNames])
    rw [refFields, List.map_map] at hall
    exact (List.nodup_append.mp (by simpa [Function.comp_def] using hall)).1
  let owner := ownerIn (c.givenNames props domRefs)
  have howner : ∀ i names, (c.givenNames props domRefs)[i]? = some names →
      ∀ x ∈ names, owner x = i := fun i names hi x hx => ownerIn_eq h.nodup hi hx
  have hprop := howner 0 props rfl
  have hbind : ∀ x ∈ bindable,
      (owner x = 0 ∧ x ∉ outs) ∨ (owner x = 6 ∧ x ∉ c.valueFields domRefs) := by
    intro x hx
    rcases hbound x hx with ⟨hprops, hnot⟩ | ⟨n, hn, hspread⟩
    · exact .inl ⟨hprop x hprops, hnot⟩
    · obtain ⟨hvalue, hgiven⟩ := h.spreads n hn x hspread
      by_cases hx : x ∈ (c.givenNames props domRefs).flatten
      · exact .inl ⟨hprop x (hgiven hx).1, (hgiven hx).2⟩
      · exact .inr ⟨ownerIn_eq_length hx, hvalue⟩
  have hfield : ∀ x ∈ fields, owner x = 3 ∨ owner x = 4 := fun x hx =>
    (hassigned x hx).imp (howner 3 _ rfl x) (howner 4 _ rfl x)
  have hout : ∀ x ∈ outs, owner x = 0 := fun x hx => hprop x (houtputs x hx)
  have hdom : ∀ x ∈ domRefs, owner x = 2 := fun x hx =>
    howner 2 _ rfl x (mem_refNames_of_domRefs hx)
  have hvalue : ∀ x ∈ c.valueFields domRefs, owner x = 6 := fun x hx =>
    ownerIn_eq_length (h.valueFields x hx)
  have hmember : ∀ x ∈ Entries.keys c.state, owner x = 1 := howner 1 _ rfl
  rw [List.nodup_flatten]
  refine ⟨?_, ?_⟩
  · simp only [List.forall_mem_cons]
    exact ⟨hbindable, hfields, houts, hdomRefs, nodup_valueFields hrefs, hstate, by rintro _ ⟨⟩⟩
  · clear_value owner
    simp only [List.pairwise_cons, List.mem_cons, List.not_mem_nil, or_false, forall_eq_or_imp, forall_eq,
      false_imp_iff, implies_true, List.Pairwise.nil, and_true]
    and_intros
    all_goals
      intro x hx hy
      grind only

end Distinct

end Component

namespace Module

section Distinct

variable {o : CompileOptions} {c : Component} {names domRefs : List Text}
  {experimental : ExperimentalOptions}

theorem outputsAmong_subset : ∀ x ∈ outputsAmong experimental names, x ∈ names := by
  intro x hx
  rw [outputsAmong] at hx
  split at hx
  next => exact List.mem_of_mem_filter hx
  next => exact absurd hx List.not_mem_nil

theorem nodup_outputsAmong (h : names.Nodup) : (outputsAmong experimental names).Nodup := by
  rw [outputsAmong]
  split
  next => exact h.filter _
  next => exact List.nodup_nil

theorem nodup_domRefs (h : c.domRefs = .ok domRefs) : domRefs.Nodup := by
  obtain ⟨found, _, h⟩ := bind_eq_ok.mp h
  obtain rfl := Except.ok.inj h
  exact nodup_eraseDups found

/-- What the view of a lowered component spreads is named by its spread bindings. -/
theorem exists_spreadTarget (hc : c.HasTexts) {m : Members} {c' : Component}
    (hlowered : lowered .empty m c = .ok c') {body : ViewBody} (h : viewBody c' = .ok body) :
    ∀ t ∈ body.spreads, ∃ n ∈ c.nodes, t ∈ Markup.spreadTargets n := by
  obtain ⟨block, hblock, h⟩ := bind_eq_ok.mp h
  obtain rfl := Except.ok.inj h
  intro t ht
  obtain ⟨n', hn', ht⟩ := (Markup.shows_renderChildren hblock).spreadTargets t ht
  obtain ⟨n, hn, hnode⟩ :=
    exists_nodeLowered hc hlowered n' (Markup.mem_subtrees_of_rendered _ n' hn')
  exact ⟨n, hn, hnode.spreadTargets_subset t ht⟩

theorem isName_members (hdistinct : c.HasDistinctNames names domRefs
    (outputsAmong experimental (names.filter (· != childrenProp)))) {m : Members}
    (hcontext : m.contextVars = Entries.keys c.context.reads) (hstate : m.stateVars = Entries.keys c.state)
    (houtputs : m.outputVars = outputsAmong experimental (names.filter (· != childrenProp)))
    (hdomRefs : m.domRefs = domRefs) : ∀ n ∈ m.names, IsName n := by
  intro n hn
  refine hdistinct.isName n ?_
  simp only [Members.names, hcontext, hstate, houtputs, hdomRefs, List.mem_append] at hn
  simp only [Component.givenNames, List.flatten_cons, List.flatten_nil, List.mem_append]
  rcases hn with ((hn | hn) | hn) | hn
  · simp [hn]
  · simp [List.mem_of_mem_filter (outputsAmong_subset n hn)]
  · simp only [Component.mem_refNames_of_domRefs hn, true_or, or_true]
  · simp [hn]

/-- The lines that declare the members of a class, and the imports and exports among them. -/
theorem BuildsModule.exists_memberLines {a : Assembled} {c' : Component} {body : ViewBody} {p : SectionParts}
    (h : BuildsModule o c a experimental c' body p) (himporter : o.importMapper = none) (hc : c.IsTyped)
    (hisName : ∀ n ∈ p.members.names, IsName n) (himported : ∀ name ∈ c.importedNames, Json.joined name = name)
    (hvars : experimental.outputs = none → p.members.outputVars = []) :
    ∃ f, ∃ fields : List Text, MemberLines.Fill f experimental c c' p ∧ f.sections <+: a.parts.sections ∧
      p.assignedImports = fields.map .text ∧ fields.Nodup ∧
      ∀ name ∈ fields, name ∈ c.importedNames ∨ name ∈ Entries.keys c.exports := by
  obtain ⟨_, hstate, _⟩ := collect_names h.collect
  have hsame : c'.importedNames = c.importedNames ∧ c'.exports = c.exports := by
    rw [lowered_rest h.lowered]
    exact ⟨rfl, rfl⟩
  obtain ⟨channel, extra, found, hchannel, hextra, hfound, hassigned⟩ := h.imports
  obtain ⟨fields, hfields, hnodup, hmem⟩ := assignedImports_texts himporter
    (resolvesTexts_lowered hc.channel h.lowered) (hsame.1 ▸ himported) hchannel hextra hfound
  rw [hsame.1, hsame.2] at hmem
  have hmember : ∀ entry ∈ c'.state, entry.1 ∈ p.members.names := fun entry hentry => by
    have hkey : entry.1 ∈ p.members.stateVars := by
      rw [hstate, ← lowered_stateKeys hc.code h.lowered]
      exact List.mem_map_of_mem hentry
    exact List.mem_append_right _ hkey
  obtain ⟨f, hfill, hprefix⟩ := Module.exists_memberLines h.sections (hassigned.trans hfields) h.outputs hvars
    hisName (lowered_hasTexts hc.code h.lowered).state hmember
  exact ⟨f, fields, hfill, hprefix, hassigned.trans hfields, hnodup, hmem⟩

/-- What the sections of a class declare comes from what the component names, so it is distinct. -/
theorem BuildsModule.names_nodup {a : Assembled} {c' : Component} {body : ViewBody} {p : SectionParts}
    (h : BuildsModule o c a experimental c' body p) (hc : c.IsTyped) (hnames : c.propNames = .ok (names.map .str))
    (hdistinct : c.HasDistinctNames names p.members.domRefs p.members.outputVars)
    (houtputVars : p.members.outputVars = outputsAmong experimental (names.filter (· != childrenProp)))
    {f : MemberLines} {fields : List Text} (hfill : MemberLines.Fill f experimental c c' p)
    (hfields : p.assignedImports = fields.map .text) (hnodup : fields.Nodup)
    (hassigned : ∀ name ∈ fields, name ∈ c.importedNames ∨ name ∈ Entries.keys c.exports) : f.names.Nodup := by
  obtain ⟨_, _, hdomRefs, _, hprops⟩ := collect_texts hnames h.collect
  have hprop : names.Nodup := (List.nodup_flatten.mp hdistinct.nodup).1 names List.mem_cons_self
  have houtputs : ∀ x ∈ p.members.outputVars, x ∈ names := fun x hx => by
    rw [houtputVars] at hx
    exact List.mem_of_mem_filter (outputsAmong_subset x hx)
  have houts : p.members.outputVars.Nodup := by
    rw [houtputVars]
    exact nodup_outputsAmong (hprop.filter _)
  have hbindable := h.bindable
  rw [hprops, bindableProps_texts] at hbindable
  rw [hfill.names_eq hfields, lowered_stateKeys hc.code h.lowered, ← Except.ok.inj hbindable, h.valueRefs]
  refine hdistinct.nodup_members ((nodup_eraseDups _).filter _) hnodup houts (nodup_domRefs hdomRefs)
    (fun x hx => ?_) hassigned houtputs
  rcases List.mem_append.mp (List.mem_eraseDups.mp (List.mem_of_mem_filter hx)) with hx | hx
  · obtain ⟨hx, hnot⟩ := List.mem_filter.mp hx
    exact .inl ⟨List.mem_of_mem_filter hx, by simpa using hnot⟩
  · exact .inr (exists_spreadTarget hc.code h.lowered h.shown x hx)

/-- No two lines of the class declare a member of the same name. -/
theorem member_names_distinct (himporter : o.importMapper = none) (hplugins : o.plugins = some .empty)
    (hgiven : o.suppressed.isGiven = false) (hexperimental : o.experimental = some experimental)
    (hc : c.IsTyped) (hnames : c.propNames = .ok (names.map .str)) (hdomRefs : c.domRefs = .ok domRefs)
    (hdistinct : c.HasDistinctNames names domRefs
      (outputsAmong experimental (names.filter (· != childrenProp)))) :
    (∀ compiled, compile o c = .ok compiled → ∃ a log c' p f, build o .empty c = .ok a ∧
      finish o .empty a.parts.text = .ok (compiled.text, log) ∧
      Members.collect o c = .ok p.members ∧ lowered .empty p.members c = .ok c' ∧
      p.valueRefs = c.valueRefs domRefs ∧ sections c' p = .ok a.parts.sections ∧ MemberLines.Fill f experimental c c' p ∧
      f.sections <+: a.parts.sections ∧ f.names.Nodup) ∧
    (IsPlain o → c.validate = .ok () → ∃ compiled, compile o c = .ok compiled) := by
  refine ⟨fun compiled hcompiled => ?_, fun ho hvalid => ?_⟩
  · obtain ⟨_, a, log, hbuild, hfinish⟩ := compile_eq_ok hplugins hgiven hcompiled
    obtain ⟨experimental', c', body, p, h⟩ := exists_buildsModule hbuild
    obtain rfl : experimental = experimental' := by
      have hoptions := h.options
      rw [experimentalOf, hexperimental] at hoptions
      exact Except.ok.inj hoptions
    obtain ⟨found, hfound, hrefs, houtputVars, _⟩ := collect_texts hnames h.collect
    obtain rfl := Except.ok.inj (h.options.symm.trans hfound)
    obtain rfl := Except.ok.inj (hrefs.symm.trans hdomRefs)
    obtain ⟨hcontext, hstate, _⟩ := collect_names h.collect
    have himported : ∀ name ∈ c.importedNames, Json.joined name = name := fun name hname =>
      joined_name (hdistinct.isName name (by simp [Component.givenNames, hname]))
    have hvars : experimental.outputs = none → p.members.outputVars = [] := fun hnone => by
      rw [houtputVars, outputsAmong, hnone]
      rfl
    obtain ⟨f, fields, hfill, hprefix, hfields, hnodup, hassigned⟩ := h.exists_memberLines himporter hc
      (isName_members hdistinct hcontext hstate houtputVars rfl) himported hvars
    rw [← houtputVars] at hdistinct
    exact ⟨a, log, c', p, f, hbuild, hfinish, h.collect, h.lowered, h.valueRefs, h.sections, hfill, hprefix,
      h.names_nodup hc hnames hdistinct houtputVars hfill hfields hnodup hassigned⟩
  · exact exists_compile_of_plainNames ho hc hvalid fun domRefs' hdomRefs' f hf => by
      obtain rfl := Except.ok.inj (hdomRefs.symm.trans hdomRefs')
      have hname : f.1 ∈ (c.refFields domRefs).map Prod.fst := List.mem_map_of_mem hf
      exact notMem_of_isName (hdistinct.isName f.1 (by simp only [Component.givenNames,
        List.flatten_cons, List.mem_append, hname, true_or, or_true]))

end Distinct

/-- An element that is spread something the component has under the name `attrs`. -/
def spreading (group : Text) (code : Text) : Node :=
  ⟨.str "div", [], [(group ++ "attrs", some ⟨.str code, .str (group ++ "attrs"), .spread, .null⟩)], [],
    .empty, none, []⟩

/-- A component with a prop, state, a ref of each kind and an import; it spreads its prop. -/
def panel : Component where
  name := .str "Panel"
  children := [spreading "props." "props.attrs",
    ⟨.str "p", [], [("ref", some (.ofCode (.str "box") .normal))], [], .empty, none, []⟩]
  state := [("count", ⟨.str "0", .data⟩)]
  props := [.str "attrs"]
  propsTypeRef := .null
  defaultProps := []
  refs := [("timer", ⟨.null, .null⟩)]
  hooks := ⟨none, none, [], none⟩
  context := ⟨[], []⟩
  imports := [⟨.str "./money", Import.importMap [("format", "format")]⟩]
  exports := []
  metadata := []
  types := []
  css := .null

theorem panel_isTyped : panel.IsTyped where
  code := {
    hooks := by rintro _ ⟨⟩
    deps := by rintro _ ⟨⟩
    state := List.forall_mem_singleton.mpr ⟨_, rfl⟩
    refs := List.forall_mem_singleton.mpr (.inl rfl)
    nodes := by
      refine List.forall_mem_cons.mpr ⟨⟨⟨_, rfl⟩, by rintro _ ⟨⟩, ?_⟩,
        List.forall_mem_singleton.mpr ⟨⟨_, rfl⟩, by rintro _ ⟨⟩, ?_⟩⟩
      all_goals exact List.forall_mem_singleton.mpr ⟨_, rfl, ⟨_, rfl⟩, .inr ⟨_, rfl⟩, .inl rfl⟩ }
  writes := by rintro _ ⟨⟩
  props := List.forall_mem_singleton.mpr ⟨_, rfl⟩
  propsType := .inl rfl
  refs := List.forall_mem_singleton.mpr (by decide)
  channel := by
    refine ⟨List.forall_mem_singleton.mpr ⟨_, _, rfl, rfl, by unfold Import.IsClear; decide, ?_⟩,
      by rintro _ ⟨⟩⟩
    exact List.forall_mem_singleton.mpr
      ⟨by decide, by unfold Import.IsClear; decide, by unfold Import.IsClear; decide⟩
  aurelia := by rintro _ ⟨⟩

theorem panel_names : panel.HasDistinctNames ["attrs"] ["box"] [] := by
  have hgiven : (panel.givenNames ["attrs"] ["box"]).flatten =
      ["attrs", "count", "timer", "box", "format"] := rfl
  have hvalues : panel.valueFields ["box"] = ["_timer"] := rfl
  constructor
  case isName =>
    rw [hgiven]
    unfold IsName
    decide
  case nodup =>
    rw [hgiven]
    decide
  case valueFields =>
    rw [hgiven, hvalues]
    decide
  case spreads =>
    rw [hgiven, hvalues]
    refine List.forall_mem_cons.mpr ⟨?_, List.forall_mem_singleton.mpr (by rintro _ ⟨⟩)⟩
    exact List.forall_mem_singleton.mpr (by decide)

theorem panel_propNames : panel.propNames = .ok ([ofString "attrs"].map .str) := by
  have hprops : panel.props = [ofString "attrs"].map .str := rfl
  have hcodes : panel.snippets = ([ofString "props.attrs", "box", "0"]).map fun s => some (.str s) := rfl
  have hread : ([ofString "attrs"] ++
      [ofString "props.attrs", "box", "0"].flatMap Component.propReads).eraseDups = ["attrs"] := by
    decide
  rw [Component.propNames_texts hprops hcodes, hread]
  rfl

theorem member_names_distinct_panel : ∃ compiled a f, compile (formattedBy none) panel = .ok compiled ∧
    build (formattedBy none) .empty panel = .ok a ∧ MemberLines.sections f <+: a.parts.sections ∧
    f.names.Nodup ∧ Entries.keys f.values = ["_timer"] := by
  have hdomRefs : panel.domRefs = .ok ["box"] := rfl
  obtain ⟨hlines, hcompiles⟩ := member_names_distinct (o := formattedBy none) rfl rfl rfl rfl panel_isTyped
    panel_propNames hdomRefs panel_names
  obtain ⟨compiled, hcompiled⟩ := hcompiles (isPlain_formattedBy none) rfl
  obtain ⟨a, _, _, p, f, hbuild, _, _, _, hvalues, _, hfill, hprefix, hnodup⟩ := hlines compiled hcompiled
  refine ⟨compiled, a, f, hcompiled, hbuild, hprefix, hnodup, ?_⟩
  rw [hfill.values, hvalues]
  rfl

/-- A component that spreads its state. -/
def board (code : Text) : Component where
  name := .str "Board"
  children := [spreading "state." code]
  state := [("attrs", ⟨.str "\x7b\x7d", .data⟩)]
  props := []
  propsTypeRef := .null
  defaultProps := []
  refs := []
  hooks := ⟨none, none, [], none⟩
  context := ⟨[], []⟩
  imports := []
  exports := []
  metadata := []
  types := []
  css := .null

theorem board_isTyped (code : Text) : (board code).IsTyped := by
  refine Component.IsBare.isTyped ⟨rfl, rfl, rfl, rfl, rfl⟩ (List.forall_mem_singleton.mpr ?_)
    (List.forall_mem_singleton.mpr ⟨_, rfl⟩) (List.forall_mem_nil _)
    (Component.resolvesTexts_of_none rfl rfl)
  exact ⟨⟨_, rfl⟩, List.forall_mem_nil _,
    List.forall_mem_singleton.mpr ⟨_, rfl, ⟨_, rfl⟩, .inr ⟨_, rfl⟩, .inl rfl⟩⟩

def boardMembers : Members := ⟨[], ["attrs"], [], [], []⟩

theorem lowered_board : lowered .empty boardMembers (board "state.attrs") = .ok (board "attrs") := by
  have hcode : boardMembers.bindingCode (.str "state.attrs") = .ok (.str "attrs") :=
    bindingCode_member rfl List.mem_cons_self "attrs" ⟨by decide, by decide⟩ rfl
  refine lowered_eq_ok.mpr ⟨board "state.attrs", rfl, ?_⟩
  simp only [board, spreading, Visitor.visit, Visitor.visitNodes, Visitor.visitNode, Visitor.visitBranch,
    Visitor.mapEntries, CodeProcessor.steps, Members.processor, onBindingCode, hcode]
  rfl

theorem classMembers_board :
    classMembers boardMembers.classCode (board "attrs").state = .ok "attrs = \x7b\x7d;" := by
  have hplain : ∀ c ∈ ofString "\x7b\x7d", isNotQuote c = true := by decide
  have hreplaced : replaceOne "this.attrs" "attrs" "\x7b\x7d" = "\x7b\x7d" := by
    rw [replaceOne, mapPlain_of_noQuote (by decide) hplain]
    decide
  have hcode : boardMembers.classCode (.str "\x7b\x7d") = .ok (.str "\x7b\x7d") := by
    rw [classCode_text (by decide)]
    change Except.ok (Json.str (strip _ (replaceOne "this.attrs" "attrs" "\x7b\x7d"))) = _
    rw [hreplaced, strip, mapPlain_of_noQuote (by decide) hplain]
    rfl
  have hmember : stateMembers boardMembers.classCode " = " ";" (board "attrs").state =
      .ok ([ofString "attrs = \x7b\x7d;"].map .str) := by
    change (stateMember boardMembers.classCode " = " ";" "attrs" ⟨.str "\x7b\x7d", .data⟩ >>= _) = _
    rw [stateMember, hcode]
    rfl
  exact classMembers_texts hmember

/-- What a component spreads of its state becomes a prop as well, beside the field of the state. -/
theorem spread_state_declared_twice : (board "state.attrs").IsTyped ∧
    (board "state.attrs").validate = .ok () ∧ (board "state.attrs").propNames = .ok [] ∧
    (board "state.attrs").domRefs = .ok [] ∧
    ((board "state.attrs").givenNames [] []).flatten = ["attrs"] ∧ IsName "attrs" ∧
    ∃ compiled a, compile (formattedBy none) (board "state.attrs") = .ok compiled ∧
      build (formattedBy none) .empty (board "state.attrs") = .ok a ∧
      a.parts.sections = ["@bindable() attrs: any;", "attrs = \x7b\x7d;"] ∧
      ∀ line ∈ a.parts.sections, DeclaresField "attrs" line := by
  have hbuild : ∃ a, build (formattedBy none) .empty (board "state.attrs") = .ok a ∧
      a.parts.sections = ["@bindable() attrs: any;", "attrs = \x7b\x7d;"] := by
    refine ⟨_, build_eq_ok.mpr ⟨boardMembers, _, [], [], board "attrs", rfl, rfl, rfl, rfl, lowered_board,
      assemble_eq_ok.mpr ⟨⟨[], []⟩, [], ⟨"<div spreadProps.bind=\"attrs\">\n</div>", ["attrs"]⟩, ⟨[], [], []⟩,
        _, ["attrs"], _, _, rfl, rfl, rfl, rfl, rfl, rfl, rfl, ?_, rfl⟩⟩, rfl⟩
    exact sections_eq_ok.mpr ⟨["@bindable() attrs: any;"], [], _, [], [], [], [], rfl, rfl,
      classMembers_board, rfl, rfl, rfl, rfl, rfl⟩
  obtain ⟨a, hbuild, hsections⟩ := hbuild
  obtain ⟨compiled, hcompiled⟩ := exists_compile_of_plainNames (isPlain_formattedBy none)
    (board_isTyped _) rfl fun domRefs hdomRefs => by
      obtain rfl := Except.ok.inj ((rfl : (board "state.attrs").domRefs = .ok []).symm.trans hdomRefs)
      rintro _ ⟨⟩
  refine ⟨board_isTyped _, rfl, rfl, rfl, rfl, ⟨by decide, by decide⟩, compiled, a, hcompiled, hbuild,
    hsections, ?_⟩
  rw [hsections]
  refine List.forall_mem_cons.mpr ⟨⟨"@bindable() ", by simp, ": any;", by decide, rfl⟩,
    List.forall_mem_singleton.mpr ⟨"", by simp, " = \x7b\x7d;", by decide, rfl⟩⟩

end Module
end ElementCompiler
