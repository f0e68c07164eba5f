import ElementCompiler.Proofs.Component.WellFormed
import ElementCompiler.Proofs.Import.Resolution
import ElementCompiler.Proofs.Json.Fields
import ElementCompiler.Proofs.Markup.Rendering
import ElementCompiler.Proofs.Module.Assembly
import ElementCompiler.Proofs.Module.Sections

set_option autoImplicit false

/-!
When a valid component is compiled. Of all that a compilation does, only the relocation of refs can
stop it, or leave a loop without its collection.
-/

namespace ElementCompiler

open Attempt Text

/-- The parts of a component have the shape that they are declared with: code is text, refs and
    imported names are named, and what goes on the import channel is without its marker. -/
structure Component.IsTyped (c : Component) : Prop where
  code : c.HasTexts
  writes : c.context.WritesTexts
  props : ∀ p ∈ c.props, p.IsText
  propsType : c.propsTypeRef.IsOptionalText
  refs : ∀ r ∈ c.refs, isBlankText r.1 = false
  channel : Import.ResolvesTexts c
  aurelia : ∀ j, Entries.get? c.metadata (.text "aurelia") = some j → j.isObject = true

/-- The component has no hooks, refs, context or metadata, and no type for its props. -/
structure Component.IsBare (c : Component) : Prop where
  hooks : c.hooks = ⟨none, none, [], none⟩
  refs : c.refs = []
  context : c.context = ⟨[], []⟩
  propsTypeRef : c.propsTypeRef = .null
  metadata : c.metadata = []

theorem Component.IsBare.isTyped {c : Component} (h : c.IsBare) (hnodes : ∀ n ∈ c.nodes, n.HasTexts)
    (hstate : ∀ s ∈ c.state, s.2.code.IsText) (hprops : ∀ p ∈ c.props, p.IsText)
    (hchannel : Import.ResolvesTexts c) : c.IsTyped where
  code := {
    hooks := by rw [h.hooks]; exact List.forall_mem_nil _
    deps := by rw [h.hooks]; exact List.forall_mem_nil _
    state := hstate
    refs := by rw [h.refs]; exact List.forall_mem_nil _
    nodes := hnodes }
  writes := by rw [h.context]; exact List.forall_mem_nil _
  props := hprops
  propsType := .inl h.propsTypeRef
  refs := by rw [h.refs]; exact List.forall_mem_nil _
  channel := hchannel
  aurelia := by rw [h.metadata]; exact nofun

theorem Component.resolvesTexts_of_none {c : Component} (himports : c.imports = [])
    (hexports : c.exports = []) : Import.ResolvesTexts c :=
  ⟨by rw [himports]; exact List.forall_mem_nil _, by rw [hexports]; exact List.forall_mem_nil _⟩

namespace Module

/-- The options of a compilation that names none but perhaps a formatter. -/
def formattedBy (formatter : Option Formatter) : CompileOptions :=
  { CompileOptions.default with formatter }

/-- Options that name nothing that the program is extended by, but perhaps a formatter. -/
structure IsPlain (o : CompileOptions) : Prop where
  importMapper : o.importMapper = none
  experimental : o.experimental = some ⟨none, .bool false, none⟩
  plugins : o.plugins = some .empty

theorem isPlain_formattedBy (formatter : Option Formatter) : IsPlain (formattedBy formatter) :=
  ⟨rfl, rfl, rfl⟩

section Steps

variable {o : CompileOptions} (ho : IsPlain o) {c : Component}
include ho

theorem experimentalOf_eq : experimentalOf o = .ok ⟨none, .bool false, none⟩ := by
  rw [experimentalOf, ho.experimental]

theorem collect_eq_ok {m : Members} : Members.collect o c = .ok m ↔
    ∃ props domRefs, c.propNames = .ok props ∧ c.domRefs = .ok domRefs ∧
      m = ⟨Entries.keys c.context.reads, Entries.keys c.state, [], domRefs,
        (props.filter fun p => !p.isText childrenProp).filter fun p => !([] : List Text).any p.isText⟩ := by
  rw [Members.collect, bind_eq_ok]
  refine exists_congr fun props => ?_
  rw [experimentalOf_eq ho, ok_bind]
  change c.propNames = .ok props ∧ (c.domRefs >>= fun domRefs => Except.ok _) = .ok m ↔ _
  rw [bind_eq_ok]
  simp only [Except.ok.injEq, exists_and_left, eq_comm (b := m)]

theorem exists_collect (hc : c.HasTexts) (hwrites : c.context.WritesTexts)
    (hprops : ∀ p ∈ c.props, p.IsText) : ∃ m, Members.collect o c = .ok m ∧
      m.names = Entries.keys c.context.reads ++ m.domRefs ++ Entries.keys c.state ∧
      m.outputVars = [] ∧ (∀ p ∈ m.props, p.IsText) ∧ c.domRefs = .ok m.domRefs := by
  obtain ⟨props, hprops, htexts⟩ := Component.exists_propNames hc hwrites hprops
  obtain ⟨domRefs, hdomRefs, _⟩ := Component.exists_domRefs hc
  refine ⟨_, (collect_eq_ok ho).mpr ⟨props, domRefs, hprops, hdomRefs, rfl⟩, ?_, rfl, fun p hp => ?_,
    hdomRefs⟩
  · rw [Members.names, List.append_nil]
  · exact htexts p (List.mem_of_mem_filter (List.mem_of_mem_filter hp))

theorem exists_importChannel (hc : c.HasTexts) (h : Import.ResolvesTexts c) :
    ∃ channel, importChannel o c = .ok channel ∧
      ∀ r ∈ channel.records, ∃ t : Import.TextRecord, r = t.readBack := by
  have hmapper : (importSettings o).mapper = some Import.structuredMapper := by
    rw [importSettings, ho.importMapper]
    rfl
  obtain ⟨used, hused⟩ := Component.exists_componentsUsed hc
  obtain ⟨records, exports, _, _, hchannel⟩ := Import.exists_channel h hmapper used
  refine ⟨_, by rw [importChannel, hused, ok_bind]; exact hchannel, fun r hr => ?_⟩
  rw [Import.records_readBack] at hr
  obtain ⟨t, _, rfl⟩ := List.mem_map.mp hr
  exact ⟨t, rfl⟩

omit ho in
theorem exists_viewBody (hc : c.HasTexts) (hloops : c.LoopsIterate) :
    ∃ body, viewBody c = .ok body := by
  have hnodes : ∀ n ∈ c.nodes, Markup.IsRenderable n := fun n hn => ⟨hc.nodes n hn, hloops n hn⟩
  exact exists_bind (Markup.exists_renderChildren _ _ hnodes) fun _ _ => ⟨_, rfl⟩

omit ho in
theorem exists_bindableProps {props : List Json} (h : ∀ p ∈ props, p.IsText)
    (spreads : List Text) : ∃ names, bindableProps props spreads = .ok names :=
  exists_bind (Json.mapM_textOr h _) fun _ _ => ⟨_, rfl⟩

omit ho in
theorem exists_elementName (hname : c.name.IsText)
    (haurelia : ∀ j, Entries.get? c.metadata (.text "aurelia") = some j → j.isObject = true) :
    ∃ name, elementName c = .ok name := by
  have hobject : ∃ fields,
      ((Entries.get? c.metadata (.text "aurelia")).getD .null).orElse (.obj []) = .obj fields := by
    cases hget : Entries.get? c.metadata (.text "aurelia") with
    | none => exact ⟨[], rfl⟩
    | some j =>
      have hj := haurelia j hget
      cases j with
      | obj fields => exact ⟨fields, Json.orElse_obj fields⟩
      | _ => cases hj
  obtain ⟨fields, hfields⟩ := hobject
  obtain ⟨s, hs⟩ := hname
  rw [elementName, hfields]
  refine exists_bind ⟨_, rfl⟩ fun given _ => ?_
  split
  next => exact ⟨_, rfl⟩
  next => exact ⟨_, by rw [hs]; rfl⟩

omit ho in
theorem resolvesTexts_lowered (hc : Import.ResolvesTexts c) {m : Members} {c' : Component}
    (hlowered : lowered .empty m c = .ok c') : Import.ResolvesTexts c' := by
  rw [lowered_rest hlowered]
  exact ⟨hc.imports, hc.exports⟩

theorem exists_assemble (hc : c.IsTyped) (hname : c.name.IsText) {m : Members}
    (hprops : ∀ p ∈ m.props, p.IsText) {c' : Component} (hlowered : lowered .empty m c = .ok c')
    (hloops : c'.LoopsIterate) (injectables outputs : List Text) :
    ∃ assembled, assemble o m injectables outputs (c.valueRefs m.domRefs) c' = .ok assembled := by
  have htexts := lowered_hasTexts hc.code hlowered
  have hrest := lowered_rest hlowered
  have hchannel := resolvesTexts_lowered hc.channel hlowered
  obtain ⟨channel, hparse, hrecords⟩ := exists_importChannel ho htexts hchannel
  have hkeys : ∀ d ∈ c'.imports, ∀ k ∈ Entries.keys d.imports, ∃ s, k = .text s := by
    intro d hd k hk
    obtain ⟨path, imports, hd⟩ := hchannel.imports d hd
    rw [hd.importsText] at hk
    obtain ⟨e, he, rfl⟩ := List.mem_map.mp hk
    obtain ⟨e', _, rfl⟩ := List.mem_map.mp he
    exact ⟨e'.1, rfl⟩
  have hwrites : c'.context.WritesTexts := by
    rw [hrest]
    exact hc.writes
  have hlocal : ∃ name, elementName c' = .ok name := by
    rw [hrest]
    exact exists_elementName hname hc.aurelia
  have htype : c'.propsTypeRef.IsOptionalText := by
    rw [hrest]
    exact hc.propsType
  have hrefs : ∀ name ∈ c.valueRefs m.domRefs, name ∈ Entries.keys c'.refs := by
    intro name hname
    rw [lowered_refs hc.code hlowered]
    exact List.mem_of_mem_filter hname
  rw [assemble, hparse, ok_bind]
  refine exists_bind (Component.exists_customImports htexts hkeys) fun custom _ => ?_
  refine exists_bind (exists_viewBody htexts hloops) fun body _ => ?_
  refine exists_bind (Import.exists_classify hrecords _ _) fun classification _ => ?_
  refine exists_bind (exists_bridge hwrites) fun bridge _ => ?_
  refine exists_bind (exists_bindableProps hprops _) fun bindable _ => ?_
  refine exists_bind hlocal fun name _ => ?_
  exact exists_bind (exists_sections htexts htype _ hrefs) fun _ _ => ⟨_, rfl⟩

/-- A valid component is compiled when it is lowered to one whose loops go through something. -/
theorem exists_compile (hc : c.IsTyped) (hvalid : c.validate = .ok ()) {m : Members}
    (hcollect : Members.collect o c = .ok m) (hprops : ∀ p ∈ m.props, p.IsText) {c' : Component}
    (hlowered : lowered .empty m c = .ok c') (hloops : c'.LoopsIterate) :
    ∃ compiled, compile o c = .ok compiled := by
  have hinjectables : ∃ parameters, injectables ⟨none, .bool false, none⟩ c = .ok parameters :=
    exists_mapM fun _ _ => ⟨_, rfl⟩
  have hname := (loopsIterate_of_validate hvalid).1
  have hbuild : ∃ assembled, build o .empty c = .ok assembled := by
    obtain ⟨parameters, hparameters⟩ := hinjectables
    obtain ⟨a, ha⟩ := exists_assemble ho hc hname hprops hlowered hloops parameters []
    exact ⟨a, build_eq_ok.mpr ⟨m, _, parameters, [], c', hcollect, experimentalOf_eq ho, hparameters,
      rfl, hlowered, ha⟩⟩
  have hplugins : pluginsOf o = .ok .empty := by rw [pluginsOf, ho.plugins]
  rw [compile]
  split
  next => exact ⟨_, rfl⟩
  next =>
    rw [generate, hvalid, ok_bind, hplugins, ok_bind]
    exact exists_bind hbuild fun _ _ => ⟨_, rfl⟩

end Steps

/-- The component is compiled, and on the way every loop keeps its collection and the import channel
    is read. -/
def Compiles (o : CompileOptions) (c : Component) : Prop :=
  (∃ compiled, compile o c = .ok compiled) ∧
    ∃ m c', Members.collect o c = .ok m ∧ lowered .empty m c = .ok c' ∧ c'.LoopsIterate ∧
      ∃ channel, importChannel o c' = .ok channel

theorem compiles_iff_lowered {o : CompileOptions} (ho : IsPlain o) {c : Component} (hc : c.IsTyped)
    (hvalid : c.validate = .ok ()) {domRefs : List Text} (hdomRefs : c.domRefs = .ok domRefs) :
    Compiles o c ↔ c.RefsRelocate domRefs ∧ c.LoopsStay domRefs := by
  obtain ⟨m, hcollect, _, houtputs, hprops, hm⟩ := exists_collect ho hc.code hc.writes hc.props
  obtain rfl := Except.ok.inj (hm.symm.trans hdomRefs)
  constructor
  · rintro ⟨_, m', c', hm', hlowered, hloops, _⟩
    obtain rfl := Except.ok.inj (hcollect.symm.trans hm')
    exact ⟨(exists_lowered m hc.code).mp ⟨c', hlowered⟩,
      (loopsIterate_lowered hc.code houtputs hlowered).mp hloops⟩
  · rintro ⟨hrelocate, hstay⟩
    obtain ⟨c', hlowered⟩ := (exists_lowered m hc.code).mpr hrelocate
    have hloops := (loopsIterate_lowered hc.code houtputs hlowered).mpr hstay
    obtain ⟨channel, hparse, _⟩ := exists_importChannel ho
      (lowered_hasTexts hc.code hlowered) (resolvesTexts_lowered hc.channel hlowered)
    exact ⟨exists_compile ho hc hvalid hcollect hprops hlowered hloops, m, c', hcollect, hlowered,
      hloops, channel, hparse⟩

end Module

section PlainNames

variable {c : Component} {domRefs : List Text}

/-- No ref is blank, so neither is its field. -/
theorem refFields_notBlank (hc : c.IsTyped) (hdomRefs : c.domRefs = .ok domRefs) :
    ∀ f ∈ c.refFields domRefs, isBlankText f.1 = false ∧ isBlankText f.2 = false := by
  have hnames : ∀ name ∈ Entries.keys c.refs ++
      (domRefs.filter fun r => !(Entries.keys c.refs).contains r).eraseDups,
      isBlankText name = false := by
    intro name hname
    rcases List.mem_append.mp hname with hname | hname
    · obtain ⟨r, hr, rfl⟩ := List.mem_map.mp hname
      exact hc.refs r hr
    · obtain ⟨names, hnames, hink⟩ := Component.exists_domRefs hc.code
      obtain rfl := Except.ok.inj (hnames.symm.trans hdomRefs)
      exact hink name (List.mem_of_mem_filter (List.mem_eraseDups.mp hname))
  intro f hf
  obtain ⟨name, hname, rfl⟩ := List.mem_map.mp hf
  refine ⟨hnames name hname, ?_⟩
  dsimp only
  split
  next => exact hnames name hname
  next => rw [isBlankText_append, hnames name hname, Bool.and_false]

/-- Refs without a backslash in their names are relocated, and every loop keeps its collection. -/
theorem relocates_of_plainNames (hc : c.IsTyped) (hvalid : c.validate = .ok ())
    (hdomRefs : c.domRefs = .ok domRefs)
    (hplain : ∀ f ∈ c.refFields domRefs, CodePoint.char '\\' ∉ f.1) :
    c.RefsRelocate domRefs ∧ c.LoopsStay domRefs := by
  have htemplates := Snippet.areTemplates_of_plain hplain
  refine ⟨fun _ => htemplates, fun n hn hloop => ?_⟩
  obtain ⟨x, code, hx, hcode, hink⟩ := (loopsIterate_of_validate hvalid).2 n hn hloop
  have hexists : ∃ moved, Snippet.relocateRefs (c.refFields domRefs) "" x.code = .ok moved :=
    (Snippet.exists_relocateRefs (.inr ⟨code, hcode⟩)).mpr fun _ => htemplates
  obtain ⟨moved, hmoved⟩ := hexists
  have hgiven : x.code.isGiven = true := by
    rw [hcode]
    cases code with
    | nil => exact absurd hink (by decide)
    | cons c cs => rfl
  refine ⟨x, moved, hx, hmoved, ?_⟩
  rw [Snippet.relocateRefs, if_pos hgiven, hcode] at hmoved
  exact Snippet.relocateEach_notBlank (fun f hf => ⟨⟨hplain f hf, (refFields_notBlank hc hdomRefs f hf).1⟩,
    (refFields_notBlank hc hdomRefs f hf).2⟩) hmoved hink

end PlainNames

namespace Module

theorem exists_compile_of_plainNames {o : CompileOptions} (ho : IsPlain o) {c : Component}
    (hc : c.IsTyped) (hvalid : c.validate = .ok ()) (hplain : ∀ domRefs, c.domRefs = .ok domRefs →
      ∀ f ∈ c.refFields domRefs, CodePoint.char '\\' ∉ f.1) :
    ∃ compiled, compile o c = .ok compiled := by
  obtain ⟨domRefs, hdomRefs, _⟩ := Component.exists_domRefs hc.code
  have hrelocates := relocates_of_plainNames hc hvalid hdomRefs (hplain domRefs hdomRefs)
  exact ((compiles_iff_lowered ho hc hvalid hdomRefs).mpr hrelocates).1

/-- A valid component with the declared shape is compiled exactly when the name of each of its refs
    is a replacement template, unless it has no code to replace in, and no loop loses its collection
    to a template that stands for blanks. Names without a backslash are such templates. -/
theorem compiles_iff_refs_relocate (formatter : Option Formatter) {c : Component} (hc : c.IsTyped)
    (hvalid : c.validate = .ok ()) : ∃ domRefs, c.domRefs = .ok domRefs ∧
      (Compiles (formattedBy formatter) c ↔ c.RefsRelocate domRefs ∧ c.LoopsStay domRefs) ∧
      ((∀ f ∈ c.refFields domRefs, CodePoint.char '\\' ∉ f.1) →
        Compiles (formattedBy formatter) c) := by
  obtain ⟨domRefs, hdomRefs, _⟩ := Component.exists_domRefs hc.code
  have hiff := compiles_iff_lowered (isPlain_formattedBy formatter) hc hvalid hdomRefs
  exact ⟨domRefs, hdomRefs, hiff, fun hplain =>
    hiff.mpr (relocates_of_plainNames hc hvalid hdomRefs hplain)⟩

def menu (ref : Text) : Component where
  name := .str "Menu"
  children := [⟨.str "For", [], [("each", some (.ofCode (.str "state.entries") .normal))],
    [⟨.str "li", [], [], [], .empty, none, []⟩], ⟨.str "entry", .null, .null⟩, none, []⟩]
  state := [("entries", ⟨.str "[]", .data⟩)]
  props := []
  propsTypeRef := .null
  defaultProps := []
  refs := [(ref, ⟨.null, .null⟩)]
  hooks := ⟨none, none, [], none⟩
  context := ⟨[], []⟩
  imports := []
  exports := []
  metadata := []
  types := []
  css := .null

theorem menu_hasTexts (ref : Text) : (menu ref).HasTexts where
  hooks := by rintro _ ⟨⟩
  deps := by rintro _ ⟨⟩
  state := List.forall_mem_singleton.mpr ⟨_, rfl⟩
  refs := List.forall_mem_singleton.mpr (.inl rfl)
  nodes := by
    refine List.forall_mem_cons.mpr ⟨⟨⟨_, rfl⟩, by rintro _ ⟨⟩, ?_⟩,
      List.forall_mem_singleton.mpr ⟨⟨_, rfl⟩, by rintro _ ⟨⟩, by rintro _ ⟨⟩⟩⟩
    exact List.forall_mem_singleton.mpr ⟨_, rfl, ⟨_, rfl⟩, .inr ⟨_, rfl⟩, .inl rfl⟩

theorem menu_isTyped (ref : Text) (href : isBlankText ref = false) : (menu ref).IsTyped where
  code := menu_hasTexts ref
  writes := by rintro _ ⟨⟩
  props := by rintro _ ⟨⟩
  propsType := .inl rfl
  refs := List.forall_mem_singleton.mpr href
  channel := ⟨by rintro _ ⟨⟩, by rintro _ ⟨⟩⟩
  aurelia := by rintro _ ⟨⟩

theorem menu_valid (ref : Text) : (menu ref).validate = .ok () := rfl

theorem compiles_iff_refs_relocate_menu : Compiles (formattedBy none) (menu "list") := by
  obtain ⟨domRefs, hdomRefs, _, hplain⟩ :=
    compiles_iff_refs_relocate none (menu_isTyped "list" (by decide)) (menu_valid "list")
  have hnone : (menu "list").domRefs = .ok [] := rfl
  obtain rfl := Except.ok.inj (hnone.symm.trans hdomRefs)
  exact hplain (by decide)

/-- A name that is written with an escape, as names may be, is taken for a template and refused. -/
theorem escaped_ref_not_compiled :
    (menu "caf\\u00e9").IsTyped ∧ (menu "caf\\u00e9").validate = .ok () ∧
      compile (formattedBy none) (menu "caf\\u00e9") = .error .badTemplate :=
  ⟨menu_isTyped _ (by decide), menu_valid _, rfl⟩

end Module
end ElementCompiler
