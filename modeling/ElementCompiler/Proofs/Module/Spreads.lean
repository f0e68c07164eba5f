import ElementCompiler.Proofs.Markup.SpreadOrder
import ElementCompiler.Proofs.Markup.Spreads
import ElementCompiler.Proofs.Module.LoweredNodes
import ElementCompiler.Proofs.Module.Props
import ElementCompiler.Proofs.Module.Usage
import ElementCompiler.Proofs.Snippet.Relocated

set_option autoImplicit false

/-!
The spread attributes of a compiled component. The sources are read from the codes that both passes
leave, and looked up by keys that no pass changes: a source is found where its code comes down to what
its key names.
-/

namespace ElementCompiler

open Text

namespace Snippet

variable {before before' s : Text}

theorem memberAt?_congr (h : headIs isJoined before = headIs isJoined before') (rest : Text) :
    memberAt? before rest = memberAt? before' rest := by
  rw [memberAt?, memberAt?, h]

theorem NoReference.congr (h : headIs isJoined before = headIs isJoined before') (hno : NoReference before s) :
    NoReference before' s := by
  intro near rest hs
  rw [← hno near rest hs]
  refine memberAt?_congr ?_ rest
  cases near.reverse with
  | nil => exact h.symm
  | cons c cs => rfl

theorem NoReference.append {near rest : Text} (h : NoReference before (near ++ rest)) :
    NoReference (near.reverse ++ before) rest := by
  intro more last hrest
  have hlast := h (near ++ more) last (by rw [hrest, List.append_assoc])
  rwa [List.reverse_append, List.append_assoc] at hlast

theorem stripFrom_led {group run : Text} (hgroup : group ∈ memberGroups)
    (hstart : headIs (·.is isNameStart) run = true) (hrun : NoReference [] run) :
    stripFrom (.before "") 0 [] (group ++ .char '.' :: run) = run := by
  obtain _ | ⟨c, cs⟩ := run
  · cases hstart
  have hc : continuesName c = true := continuesName_of_isNameStart hstart
  have hmember := isName_takeWhile hc cs
  rw [cons_eq_name_append c cs] at hrun ⊢
  rw [stripFrom_member _ hgroup (by rfl) hmember hstart (headIs_dropWhile continuesName cs),
    stripFrom_of_noReference _ (hrun.append.congr ?_)]
  · rfl
  · exact (headIs_isJoined_name hmember _).trans (headIs_isJoined_name hmember _).symm

/-- No member is reached through a group outside literals. -/
def NamesNoMember (code : Text) : Prop := ∀ run, .plain run ∈ segments code → NoReference [] run

theorem NamesNoMember.strip {code : Text} (h : NamesNoMember code) (r : Receptor) : strip r code = code :=
  ReferenceFree.strip h r

/-- A group ahead of code without references is taken away. -/
theorem strip_led {group code : Text} (hgroup : group ∈ memberGroups)
    (hstart : headIs (·.is isNameStart) code = true) (hcode : NamesNoMember code) :
    strip (.before "") (group ++ .char '.' :: code) = code := by
  obtain _ | ⟨c, cs⟩ := code
  · cases hstart
  have hplain : isNotQuote c = true := isNotQuote_of_continuesName (continuesName_of_isNameStart hstart)
  have hlead : ∀ g ∈ memberGroups, ∀ d ∈ g ++ [CodePoint.char '.'], isNotQuote d = true := by decide
  have hsegments : segments (c :: cs) =
      .plain (c :: cs.takeWhile isNotQuote) :: segments (cs.dropWhile isNotQuote) := by
    rw [segments, if_neg (by simp [isQuote_eq_false hplain])]
  have hrun : NoReference [] (c :: cs.takeWhile isNotQuote) := hcode _ (by rw [hsegments]; exact List.mem_cons_self)
  have hrest : NamesNoMember (cs.dropWhile isNotQuote) := fun run hmem =>
    hcode run (by rw [hsegments]; exact List.mem_cons_of_mem _ hmem)
  have hkept := hrest.strip (.before "")
  have hled : stripFrom (.before "") 0 [] (group ++ .char '.' :: c :: cs.takeWhile isNotQuote) =
    c :: cs.takeWhile isNotQuote := stripFrom_led hgroup hstart hrun
  rw [Snippet.strip] at hkept
  rw [Snippet.strip, List.append_cons, mapPlain_append (by simp) (hlead group hgroup),
    List.takeWhile_cons_of_pos hplain, List.dropWhile_cons_of_pos hplain, hkept, List.append_assoc,
    List.singleton_append, hled, List.cons_append, List.takeWhile_append_dropWhile]

end Snippet

namespace Module

open Attempt Markup Snippet

/-- The code of a binding once members are taken from behind their groups and quotes are encoded. -/
def encodedCode (outputs : List Text) (code : Text) : Text :=
  encodeQuotes (if code.isEmpty then code else relocateMembers outputs instanceLead (.before "") code)

/-- The keys of the spread bindings, in their order. -/
def spreadKeys (n : Node) : List Text :=
  n.bindings.filterMap fun b => b.2.bind fun x => if x.mode = .spread then some b.1 else none

/-- Each spread binding has its code for its key. -/
def KeyedByCode (n : Node) : Prop :=
  ∀ key x, (key, some x) ∈ n.bindings → x.mode = .spread → x.code = .str key

/-- Each source comes down to the same code before and after its members are taken from behind their
    groups, and the codes are not blank and not the same. -/
structure TellsSources (outputs : List Text) (n : Node) : Prop where
  kept : ∀ key ∈ spreadKeys n, bare (encodedCode outputs key) = bare key
  apart : (spreadTargets n).Nodup
  given : [] ∉ spreadTargets n

/-- A source without double quotes that names a member through its group, or else reaches none. -/
structure IsPlainSource (key : Text) : Prop where
  led : key = bare key ∨ ∃ group ∈ memberGroups, key = group ++ .char '.' :: bare key ∧
    headIs (·.is isNameStart) (bare key) = true
  single : bare (bare key) = bare key
  noQuote : CodePoint.char '"' ∉ bare key
  noMember : NamesNoMember (bare key)

section Sources

variable {m : Members} {n n' : Node} {place : Place} {key : Text} {p : Piece} {spreads : List Attribute}
  {bs bs' : Entries (Option Binding)}

theorem bindingCode_text (m : Members) (code : Text) :
    m.bindingCode (.str code) = .ok (.str (encodedCode m.outputVars code)) := rfl

theorem spreadTargets_eq (n : Node) : spreadTargets n = (spreadKeys n).map bare := by
  rw [spreadTargets, spreadKeys, List.map_filterMap]
  refine List.filterMap_congr fun b _ => ?_
  cases b.2 with
  | none => rfl
  | some x => by_cases hmode : x.mode = .spread <;> simp [hmode]

theorem encodedCode_plainSource (h : IsPlainSource key) : encodedCode [] key = bare key := by
  have hencoded : encodeQuotes (bare key) = bare key := replaceFrom_eq_self h.noQuote
  have hstripped : strip (.before "") key = bare key := by
    rcases h.led with hkey | ⟨group, hgroup, hkey, hstart⟩
    · exact (congrArg (strip (.before "")) hkey).trans (h.noMember.strip _)
    · have hled := strip_led hgroup hstart h.noMember
      rwa [← hkey] at hled
  rw [encodedCode]
  split
  next hempty =>
    obtain rfl := List.isEmpty_iff.mp hempty
    rfl
  next => exact (congrArg encodeQuotes hstripped).trans hencoded

theorem namesNoMember_name {x : Text} (hx : IsName x) : NamesNoMember x := by
  intro run hrun
  have hsegments : segments (x ++ []) = .plain x :: segments [] :=
    segments_run_append hx.1 (fun c hc => isNotQuote_of_continuesName (hx.2 c hc)) (by rintro c cs ⟨⟩)
  rw [List.append_nil, segments] at hsegments
  rw [hsegments, List.mem_singleton] at hrun
  obtain rfl := Segment.plain.inj hrun
  have hname : NoReference [] (run ++ []) := .name hx (by rfl) (.inr (.inr (by rfl))) (.nil _)
  rwa [List.append_nil] at hname

theorem bare_name {x : Text} (hx : IsName x) : bare x = x := by
  have hpoint : CodePoint.char '.' ∉ x := fun hmem => absurd (hx.2 _ hmem) (by decide)
  have hnone : ∀ lead : Text, CodePoint.char '.' ∈ lead → after? lead x = none := by
    intro lead hlead
    cases hafter : after? lead x with
    | none => rfl
    | some rest =>
      rw [eq_append_of_after? hafter] at hpoint
      exact absurd (List.mem_append_left _ hlead) hpoint
  rw [bare, trim_name hx, hnone "props." (by decide), hnone "state." (by decide)]
  rfl

theorem bare_member {group x : Text} (hgroup : group ∈ memberGroups) (hx : IsName x) :
    bare (group ++ .char '.' :: x) = x := by
  obtain rfl | ⟨s, c, rfl⟩ := List.eq_nil_or_concat x
  · exact absurd rfl hx.1
  have hc : c.is isBlank = false := is_isBlank_of_isMember (hx.2 c (by simp))
  have htrim : trim (group ++ .char '.' :: (s ++ [c])) = group ++ .char '.' :: (s ++ [c]) := by
    have hblank : ∀ g ∈ memberGroups, ∃ d ds, g = d :: ds ∧ d.is isBlank = false := by
      rintro g hg
      rcases List.mem_cons.mp hg with rfl | hg
      · exact ⟨_, _, rfl, by decide⟩
      · obtain rfl := List.mem_singleton.mp hg
        exact ⟨_, _, rfl, by decide⟩
    obtain ⟨d, ds, rfl, hd⟩ := hblank group hgroup
    rw [List.cons_append, trim_cons hd, ← List.cons_append, ← List.append_assoc, trimEnd_append hc]
  rw [bare, List.concat_eq_append, htrim]
  rcases List.mem_cons.mp hgroup with rfl | hgroup
  · simp [after?, ofString]
  · obtain rfl := List.mem_singleton.mp hgroup
    simp [after?, ofString]

theorem isPlainSource_name {x : Text} (hx : IsName x) : IsPlainSource x where
  led := .inl (bare_name hx).symm
  single := by rw [bare_name hx, bare_name hx]
  noQuote := by
    rw [bare_name hx]
    exact fun hmem => absurd (hx.2 _ hmem) (by decide)
  noMember := by
    rw [bare_name hx]
    exact namesNoMember_name hx

theorem isPlainSource_member {group x : Text} (hgroup : group ∈ memberGroups) (hx : IsName x)
    (hstart : headIs (·.is isNameStart) x = true) : IsPlainSource (group ++ .char '.' :: x) := by
  have hbare := bare_member hgroup hx
  constructor
  case led => exact .inr ⟨group, hgroup, by rw [hbare], by rw [hbare]; exact hstart⟩
  case single => rw [hbare, bare_name hx]
  case noQuote =>
    rw [hbare]
    exact fun hmem => absurd (hx.2 _ hmem) (by decide)
  case noMember =>
    rw [hbare]
    exact namesNoMember_name hx

theorem tellsSources_of_plain (hkeys : ∀ key ∈ spreadKeys n, IsPlainSource key)
    (hapart : (spreadTargets n).Nodup) (hgiven : [] ∉ spreadTargets n) : TellsSources [] n where
  kept key hkey := by rw [encodedCode_plainSource (hkeys key hkey), (hkeys key hkey).single]
  apart := hapart
  given := hgiven

theorem refCode_noFields (key : Text) (code : Json) : refCode [] key code = .ok code := by
  unfold refCode relocateRefs relocateEach
  simp

/-- The codes of lowered spread bindings are their keys, encoded. -/
theorem spreadSources_lowered (h : List.Forall₂ (Visitor.EntryVisited (loweredBinding [] m)) bs bs')
    (hkeyed : ∀ key x, (key, some x) ∈ bs → x.mode = .spread → x.code = .str key) :
    spreadSources bs' = .ok
      ((bs.filterMap fun b => b.2.bind fun x => if x.mode = .spread then some b.1 else none).map
        fun key => bare (encodedCode m.outputVars key)) := by
  induction h with
  | nil => rfl
  | @cons b b' bs bs' hb _ ih =>
    obtain ⟨key, _⟩ := b
    obtain ⟨_, _⟩ := b'
    obtain ⟨hsame, hlowered⟩ := hb
    obtain ⟨x, code, code', rfl, hrefs, hcode, hx'⟩ := loweredBinding_eq_ok hlowered
    obtain rfl := Except.ok.inj ((refCode_noFields key x.code).symm.trans hrefs)
    simp only at hsame hx'
    obtain rfl := hx'
    have hrest := ih fun key x hmem => hkeyed key x (List.mem_cons_of_mem _ hmem)
    rw [spreadSources]
    by_cases hmode : x.mode = .spread
    · rw [hkeyed key x List.mem_cons_self hmode, bindingCode_text] at hcode
      obtain rfl := Except.ok.inj hcode
      rw [if_pos hmode, List.filterMap_cons_some (b := key) (by simp [hmode]), List.map_cons, hrest]
      rfl
    · rw [if_neg hmode, List.filterMap_cons_none (by simp [hmode]), hrest]

/-- The spread bindings keep their keys. -/
theorem spreadKeys_lowered (h : NodeLowered [] m n n') : spreadKeys n' = spreadKeys n := by
  have hbindings := h.bindings
  unfold spreadKeys
  generalize n.bindings = bs, n'.bindings = bs' at hbindings
  induction hbindings with
  | nil => rfl
  | @cons b b' bs bs' hb _ ih =>
    obtain ⟨hkey, hlowered⟩ := hb
    obtain ⟨x, _, _, hx, _, _, hx'⟩ := loweredBinding_eq_ok hlowered
    rw [List.filterMap_cons, List.filterMap_cons, ih, hx, hx', hkey]
    rfl

theorem namesNoSpread_lowered (hn : NamesNoSpread n) (h : NodeLowered [] m n n') : NamesNoSpread n' where
  properties := by
    have hsame : propertyAttributes n' = propertyAttributes n := by
      rw [propertyAttributes, propertyAttributes, h.properties]
    rw [hsame]
    exact hn.properties
  bindings key x' hx' hrule := by
    obtain ⟨⟨key', b⟩, hb, hkey, hlowered⟩ := exists_left h.bindings _ hx'
    obtain ⟨x, _, _, rfl, _, _, heq⟩ := loweredBinding_eq_ok hlowered
    obtain rfl : key = key' := hkey
    obtain rfl := Option.some.inj heq
    exact hn.bindings _ x hb hrule

end Sources

/-- What the spread bindings of a node put into its tag. -/
structure ShowsSpreads (outputs : List Text) (n n' : Node) (place : Place) (p : Piece)
    (spreads : List Attribute) : Prop where
  emitted : EmitsSpreads n' place p spreads
  named : NamesNoSpread n → p.attributes.filter (fun a => isSpreadName a.name) = spreads
  placed : spreads = placedSpreads (spreadTargets n) ↔ TellsSources outputs n
  distinct : ((placedSpreads (spreadTargets n)).map (·.name)).Nodup
  plain : outputs = [] → (∀ key ∈ spreadKeys n, IsPlainSource key) → (spreadTargets n).Nodup →
    [] ∉ spreadTargets n → spreads = placedSpreads (spreadTargets n)

section Claim

variable {o : CompileOptions} {c c' : Component} {a : Assembled} {m : Members} {block : Block} {n n' root : Node}
  {place : Place}

theorem showsSpreads_of_rendered {p : Piece} {spreads : List Attribute} (h : NodeLowered [] m n n')
    (hkeyed : KeyedByCode n) (hspreads : EmitsSpreads n' place p spreads) :
    ShowsSpreads m.outputVars n n' place p spreads := by
  have htargets : spreadTargets n' = spreadTargets n := by
    rw [spreadTargets_eq, spreadTargets_eq, spreadKeys_lowered h]
  have hsources := spreadSources_lowered h.bindings hkeyed
  change spreadSources n'.bindings = .ok ((spreadKeys n).map fun key => bare (encodedCode m.outputVars key)) at hsources
  have hlength : ((spreadKeys n).map fun key => bare (encodedCode m.outputVars key)).length =
      (spreadTargets n').length := by
    rw [htargets, spreadTargets_eq, List.length_map, List.length_map]
  have hplaced : spreads = placedSpreads (spreadTargets n) ↔ TellsSources m.outputVars n := by
    rw [← htargets, hspreads.eq_placed_iff hsources hlength, htargets]
    constructor
    · rintro ⟨hnamed, hapart, hgiven⟩
      rw [spreadTargets_eq] at hnamed
      exact ⟨List.map_inj_left.mp hnamed, hapart, hgiven⟩
    · rintro ⟨hkept, hapart, hgiven⟩
      exact ⟨by rw [spreadTargets_eq]; exact List.map_congr_left hkept, hapart, hgiven⟩
  refine ⟨hspreads, fun hnames => hspreads.eq_filter (namesNoSpread_lowered hnames h), hplaced, nodup_placedSpreads _, ?_⟩
  intro houtputs hkeys hapart hgiven
  refine hplaced.mpr ?_
  rw [houtputs]
  exact tellsSources_of_plain hkeys hapart hgiven

/-- In a component without refs, the tag of an element has one spread attribute for each of its spread
    bindings, in their order and bound to their sources without a leading group, exactly when each
    source comes down to the same code once members are taken from behind their groups and quotes are
    encoded, and no source is blank or comes down to the same code as another one. Sources that name
    members plainly do when they are not the same. -/
theorem spreads_shown_in_order (hplugins : o.plugins = some .empty) (hgiven : o.suppressed.isGiven = false)
    (hc : c.HasTexts) (hrefs : c.refs = []) (hdomRefs : c.domRefs = .ok []) :
    (∀ compiled, compile o c = .ok compiled → ∃ a log m c' block imports, build o .empty c = .ok a ∧
      finish o .empty a.parts.text = .ok (compiled.text, log) ∧ RendersView o c a m c' block ∧
      a.parts.view = assembleView o.targetVersion imports (block.text ++ viewTail c') ∧
      List.Forall₂ (NodeLowered [] m) c.nodes c'.nodes ∧
      ∀ n n', NodeLowered [] m n n' → KeyedByCode n → ∀ root ∈ c'.children, ∀ place,
        StandsIn ⟨.templateRoot, [], c'.callableNames⟩ root place n' → blockRule n' = .ok .element →
        ∃ p ∈ block.pieces, Writes place n' p ∧ ∃ spreads, ShowsSpreads m.outputVars n n' place p spreads) ∧
    (IsPlain o → c.IsTyped → c.validate = .ok () → ∃ compiled, compile o c = .ok compiled) := by
  have hnoFields : c.refFields [] = [] := by
    rw [Component.refFields, hrefs]
    rfl
  refine ⟨fun compiled hcompiled => ?_, fun ho htyped hvalid => ?_⟩
  · obtain ⟨_, a, log, hbuild, hfinish⟩ := compile_eq_ok hplugins hgiven hcompiled
    obtain ⟨m, c', block, hview⟩ := exists_rendersView hbuild
    obtain ⟨imports, himports⟩ := hview.view
    have hnodes := nodes_lowered hc hview.lowered
    obtain hm : [] = m.domRefs := Except.ok.inj (hdomRefs.symm.trans (collect_names hview.collect).2.2)
    rw [← hm, hnoFields] at hnodes
    refine ⟨a, log, m, c', block, imports, hbuild, hfinish, hview, himports, hnodes, ?_⟩
    intro n n' hnode hkeyed root hroot place hstands hrule
    obtain ⟨k, hk, hbelow⟩ := exists_renderNode_of_children hview.rendered hroot
    obtain ⟨shown, hshown, hwithin⟩ := hstands.within hk
    obtain ⟨p, hp, hwrites, spreads, hspreads⟩ := exists_emitsSpreads hrule hshown
    have hinfix := (hwithin (text_ne_nil_of_element hrule hshown)).trans hbelow
    exact ⟨p, hinfix.subset hp, hwrites, spreads, showsSpreads_of_rendered hnode hkeyed hspreads⟩
  · refine exists_compile_of_plainNames ho htyped hvalid fun domRefs hfound f hf => ?_
    obtain rfl := Except.ok.inj (hdomRefs.symm.trans hfound)
    rw [hnoFields] at hf
    cases hf

end Claim

/-- An element with the sources spread on it. -/
def spreadingAll (sources : List Text) : Node :=
  ⟨.str "div", [], sources.map fun s => (s, some ⟨.str s, .str s, .spread, .null⟩), [], .empty, none, []⟩

def canvas (sources : List Text) : Component where
  name := .str "Canvas"
  children := [spreadingAll sources]
  state := []
  props := [.str "attrs"]
  propsTypeRef := .null
  defaultProps := []
  refs := []
  hooks := ⟨none, none, [], none⟩
  context := ⟨[], []⟩
  imports := []
  exports := []
  metadata := []
  types := []
  css := .null

section Canvas

theorem canvas_isTyped (sources : List Text) : (canvas sources).IsTyped := by
  refine Component.IsBare.isTyped ⟨rfl, rfl, rfl, rfl, rfl⟩ (List.forall_mem_singleton.mpr ?_)
    (List.forall_mem_nil _) (List.forall_mem_singleton.mpr ⟨_, rfl⟩)
    (Component.resolvesTexts_of_none rfl rfl)
  exact ⟨⟨_, rfl⟩, List.forall_mem_nil _,
    List.forall_mem_map.mpr fun _ _ => ⟨_, rfl, ⟨_, rfl⟩, .inr ⟨_, rfl⟩, .inl rfl⟩⟩

theorem keyedByCode_spreadingAll (sources : List Text) : KeyedByCode (spreadingAll sources) := by
  intro key x hx _
  obtain ⟨s, _, heq⟩ := List.mem_map.mp hx
  obtain ⟨rfl, hx'⟩ := Prod.mk.inj heq
  rw [← Option.some.inj hx']

/-- The element of the component once its code has been lowered. -/
def canvasNode (x : Text) : Node :=
  ⟨.str "div", [], [("props.attrs", some ⟨.str "attrs", .str "props.attrs", .spread, .null⟩),
    (x, some ⟨.str x, .str x, .spread, .null⟩)], [], .empty, none, []⟩

theorem namesNoSpread_spreadingAll (sources : List Text) : NamesNoSpread (spreadingAll sources) where
  properties := by rintro _ ⟨⟩
  bindings key x hx hrule := by
    obtain ⟨s, _, heq⟩ := List.mem_map.mp hx
    obtain ⟨rfl, hx'⟩ := Prod.mk.inj heq
    rw [← Option.some.inj hx'] at hrule
    cases hrule

theorem lowered_canvas {m : Members} (hm : m.domRefs = []) (houtputs : m.outputVars = []) {x : Text}
    (hx : IsName x) : lowered .empty m (canvas ["props.attrs", x]) =
      .ok { canvas [] with children := [canvasNode x] } := by
  have hattrs : m.bindingCode (.str "props.attrs") = .ok (.str "attrs") :=
    bindingCode_member houtputs (List.mem_cons_of_mem _ List.mem_cons_self) "attrs" ⟨by decide, by decide⟩ rfl
  have hname : m.bindingCode (.str x) = .ok (.str x) := by
    rw [bindingCode_text, houtputs, encodedCode_plainSource (isPlainSource_name hx), bare_name hx]
  refine lowered_eq_ok.mpr ⟨canvas _, by rw [hm]; rfl, ?_⟩
  simp only [canvas, spreadingAll, List.map_cons, List.map_nil, Visitor.visit, Visitor.visitNodes, Visitor.visitNode,
    Visitor.visitBranch, Visitor.mapEntries, CodeProcessor.steps, Members.processor, onBindingCode, hattrs, hname]
  rfl

theorem rendersView_canvas {a : Assembled} {m : Members} {c' : Component} {block : Block} {x : Text}
    (hx : IsName x) (hdomRefs : (canvas ["props.attrs", x]).domRefs = .ok [])
    (h : RendersView (formattedBy none) (canvas ["props.attrs", x]) a m c' block) :
    c' = { canvas [] with children := [canvasNode x] } ∧ m.outputVars = [] := by
  have hm : [] = m.domRefs := Except.ok.inj (hdomRefs.symm.trans (collect_names h.collect).2.2)
  obtain ⟨_, _, _, _, rfl⟩ := (collect_eq_ok (isPlain_formattedBy none)).mp h.collect
  exact ⟨Except.ok.inj (h.lowered.symm.trans (lowered_canvas hm.symm rfl hx)), rfl⟩

theorem spreads_canvas {x : Text} (hx : IsName x) :
    (∀ key ∈ spreadKeys (spreadingAll ["props.attrs", x]), IsPlainSource key) ∧
      spreadTargets (spreadingAll ["props.attrs", x]) = [ofString "attrs", x] := by
  have hattrs : IsName (ofString "attrs") := ⟨by decide, by decide⟩
  have hprops : ofString "props" ∈ memberGroups := by decide
  constructor
  · exact List.forall_mem_cons.mpr ⟨isPlainSource_member hprops hattrs rfl,
      List.forall_mem_singleton.mpr (isPlainSource_name hx)⟩
  · have htargets : spreadTargets (spreadingAll ["props.attrs", x]) = [bare "props.attrs", bare x] := rfl
    rw [htargets, bare_name hx]
    exact congrArg (fun t => [t, x]) (bare_member hprops hattrs)

end Canvas

theorem spreads_shown_in_order_rest : ∃ compiled,
    compile (formattedBy none) (canvas ["props.attrs", "rest"]) = .ok compiled ∧
    ∃ a m c' block, RendersView (formattedBy none) (canvas ["props.attrs", "rest"]) a m c' block ∧
      ∃ p ∈ block.pieces, p.attributes.filter (fun a => isSpreadName a.name) =
        [.of "spreadProps0.bind" "attrs", .of "spreadProps1.bind" "rest"] := by
  have hx : IsName (ofString "rest") := ⟨by decide, by decide⟩
  obtain ⟨hshows, hcompiles⟩ := spreads_shown_in_order (o := formattedBy none) (c := canvas ["props.attrs", "rest"])
    rfl rfl (canvas_isTyped _).code rfl rfl
  obtain ⟨compiled, hcompiled⟩ := hcompiles (isPlain_formattedBy none) (canvas_isTyped _) rfl
  obtain ⟨a, _, m, c', block, _, _, _, hview, _, hnodes, hspreads⟩ := hshows compiled hcompiled
  obtain ⟨rfl, houtputs⟩ := rendersView_canvas hx rfl hview
  obtain _ | ⟨hnode, -⟩ := hnodes
  obtain ⟨hplain, htargets⟩ := spreads_canvas hx
  obtain ⟨p, hp, -, spreads, hshown⟩ := hspreads (spreadingAll ["props.attrs", "rest"]) _ hnode
    (keyedByCode_spreadingAll _) _ List.mem_cons_self _ (.self _ _) rfl
  have hplaced := hshown.plain houtputs hplain (by rw [htargets]; decide) (by rw [htargets]; decide)
  refine ⟨compiled, hcompiled, a, m, _, block, hview, p, hp, ?_⟩
  rw [hshown.named (namesNoSpread_spreadingAll _), hplaced, htargets]
  rfl

/-- A prop that is spread under both its names takes one number twice. -/
theorem one_number_for_two_spreads : KeyedByCode (spreadingAll ["props.attrs", "attrs"]) ∧
    (canvas ["props.attrs", "attrs"]).validate = .ok () ∧
    ∃ compiled, compile (formattedBy none) (canvas ["props.attrs", "attrs"]) = .ok compiled ∧
      ∃ a m c' block, build (formattedBy none) .empty (canvas ["props.attrs", "attrs"]) = .ok a ∧
        RendersView (formattedBy none) (canvas ["props.attrs", "attrs"]) a m c' block ∧
        block.text = "<div spreadProps0.bind=\"attrs\" spreadProps0.bind=\"attrs\">\n</div>" := by
  have hx : IsName (ofString "attrs") := ⟨by decide, by decide⟩
  obtain ⟨compiled, hcompiled⟩ := exists_compile_of_plainNames (isPlain_formattedBy none)
    (canvas_isTyped ["props.attrs", "attrs"]) rfl fun domRefs hdomRefs => by
      obtain rfl := Except.ok.inj ((rfl : (canvas ["props.attrs", "attrs"]).domRefs = .ok []).symm.trans hdomRefs)
      rintro _ ⟨⟩
  obtain ⟨_, a, _, hbuild, _⟩ := compile_eq_ok rfl rfl hcompiled
  obtain ⟨m, c', block, hview⟩ := exists_rendersView hbuild
  obtain ⟨rfl, -⟩ := rendersView_canvas hx rfl hview
  refine ⟨keyedByCode_spreadingAll _, rfl, compiled, hcompiled, a, m, _, block, hbuild, hview, ?_⟩
  have hrendered := hview.rendered
  obtain rfl := Except.ok.inj (hrendered.symm.trans rfl)
  rfl

/-- The view of a module collects what its component spreads, and each source becomes a bindable field, the
    children and the slots apart. -/
structure DeclaresSpreads (o : CompileOptions) (plugins : PluginSet) (c : Component) (a : Assembled)
    (c' : Component) (block : Block) : Prop where
  lowered : ∃ source m, plugins.runComponent .preComponent c = .ok source ∧ Members.collect o source = .ok m ∧
    lowered plugins m source = .ok c'
  rendered : renderChildren ⟨.templateRoot, [], c'.callableNames⟩ "\n  " c'.children = .ok block
  view : ∃ tags, a.parts.view = assembleView o.targetVersion tags (block.text ++ viewTail c')
  shown : ShowsInOrder (renderedChildren c'.children) block
  once : CollectsOnce (renderedChildren c'.children) block
  declared : ∀ s ∈ emittedSpreads (renderedChildren c'.children), s ≠ childrenProp → isSlotKey s = false →
    IsBindable c' a.parts.sections s

section Collected

variable {o : CompileOptions} {c : Component}

theorem mem_bindableProps {props : List Json} {spreads bindable : List Text}
    (h : bindableProps props spreads = .ok bindable) {s : Text} (hs : s ∈ spreads) (hchildren : s ≠ childrenProp)
    (hslot : isSlotKey s = false) : s ∈ bindable := by
  obtain ⟨names, _, h⟩ := bind_eq_ok.mp h
  obtain rfl := Except.ok.inj h
  refine List.mem_filter.mpr ⟨List.mem_eraseDups.mpr (List.mem_append_right _ hs), ?_⟩
  simp [hchildren, hslot]

theorem exists_declaresSpreads {plugins : PluginSet} {a : Assembled} (h : build o plugins c = .ok a) :
    ∃ c' block, DeclaresSpreads o plugins c a c' block := by
  obtain ⟨source, hsource, h⟩ := bind_eq_ok.mp h
  obtain ⟨m, hcollect, h⟩ := bind_eq_ok.mp h
  obtain ⟨_, _, h⟩ := bind_eq_ok.mp h
  obtain ⟨_, _, h⟩ := bind_eq_ok.mp h
  obtain ⟨_, _, h⟩ := bind_eq_ok.mp h
  obtain ⟨c', hlowered, hassemble⟩ := bind_eq_ok.mp h
  obtain ⟨_, _, body, _, _, _, _, _, _, _, hbody, _, _, hbindable, _, hsections, rfl⟩ := assemble_eq_ok.mp hassemble
  obtain ⟨block, hblock, hbody⟩ := bind_eq_ok.mp hbody
  obtain rfl := Except.ok.inj hbody
  have hcollected := collectsSpreads_renderChildren hblock
  have honce := hcollected.once (joinsBlocks_of_renderChildren hblock).nodup
  refine ⟨c', block, ⟨source, m, hsource, hcollect, hlowered⟩, hblock, ⟨_, rfl⟩, hcollected.showsInOrder, honce, ?_⟩
  intro s hs hchildren hslot
  have hspread : s ∈ block.spreads := by
    rw [honce.first]
    exact List.mem_eraseDups.mpr hs
  exact (hasFields_of_sections hsections).props s (mem_bindableProps hbindable hspread hchildren hslot)

/-- The text of a rendered node has the spread attributes in the order of the tree: those of an element
    before those below it, those of a conditional before those of its else branch. The sources are collected
    in this order and once each, unless the node is a void element that spreads a source twice: it collects
    what its tag spreads as it is. Siblings always collect each source once, and so does the view of every
    module, whose class declares the sources. -/
theorem spreads_collected_once (place : Place) (n : Node) (o : CompileOptions) (c : Component) :
    (∀ b, renderNode place n = .ok b → ShowsInOrder (renderedNodes n) b ∧
      (CollectsOnce (renderedNodes n) b ↔ (isVoidElement n = true → (tagSpreads n).Nodup)) ∧
      (isVoidElement n = true → b.spreads = emittedSpreads (renderedNodes n))) ∧
    (∀ sep ns b, renderChildren place sep ns = .ok b →
      ShowsInOrder (renderedChildren ns) b ∧ CollectsOnce (renderedChildren ns) b) ∧
    (∀ plugins compiled, o.plugins = some plugins → o.suppressed.isGiven = false →
      compile o c = .ok compiled → ∃ a log, build o plugins c = .ok a ∧
        finish o plugins a.parts.text = .ok (compiled.text, log) ∧
        ∃ c' block, DeclaresSpreads o plugins c a c' block) := by
  refine ⟨fun b h => ?_, fun sep ns b h => ?_, fun plugins compiled hplugins hgiven h => ?_⟩
  · refine ⟨(collectsSpreads_renderNode h).showsInOrder, collectsOnce_iff h, fun hvoid => ?_⟩
    rw [(spreads_of_renderNode h).1 hvoid, emittedSpreads_void hvoid]
  · have hcollected := collectsSpreads_renderChildren h
    exact ⟨hcollected.showsInOrder, hcollected.once (joinsBlocks_of_renderChildren h).nodup⟩
  · obtain ⟨_, a, log, hbuild, hfinish⟩ := compile_eq_ok hplugins hgiven h
    exact ⟨a, log, hbuild, hfinish, exists_declaresSpreads hbuild⟩

/-- An element of the tag with the sources spread on it. -/
def spreadingOn (tag : Text) (sources : List Text) (children : List Node) : Node :=
  { spreadingAll sources with name := .str tag, children := children }

/-- A panel with an input in it, and another panel where it is hidden. -/
def togglePanel : Node where
  name := .str "Show"
  properties := []
  bindings := [("when", some ⟨.str "when", .str "open", .normal, .null⟩)]
  children := [spreadingOn "div" ["attrs"] [spreadingOn "input" ["props.rest", "attrs"] []]]
  scope := .empty
  elseBranch := some (spreadingOn "div" ["rest", "more"] [])
  metadata := []

/-- The panel collects its sources once, and a source that is no prop becomes a field of the canvas. -/
theorem spreads_collected_once_toggle :
    (∃ b, renderNode .start togglePanel = .ok b ∧ ShowsInOrder (renderedNodes togglePanel) b ∧
      emittedSpreads (renderedNodes togglePanel) = ["attrs", "rest", "attrs", "rest", "more"] ∧
      b.spreads = ["attrs", "rest", "more"]) ∧
    ∃ compiled, compile (formattedBy none) (canvas ["props.attrs", "rest"]) = .ok compiled ∧
      ∃ a c', build (formattedBy none) .empty (canvas ["props.attrs", "rest"]) = .ok a ∧
        IsBindable c' a.parts.sections "rest" := by
  obtain ⟨hnode, -, hmodule⟩ :=
    spreads_collected_once .start togglePanel (formattedBy none) (canvas ["props.attrs", "rest"])
  constructor
  · obtain ⟨b, hb⟩ : ∃ b, renderNode .start togglePanel = .ok b := ⟨_, rfl⟩
    obtain ⟨hshows, honce, -⟩ := hnode b hb
    have hfirst := (honce.mpr fun hvoid => nomatch hvoid).first
    exact ⟨b, hb, hshows, rfl, hfirst⟩
  · have hx : IsName (ofString "rest") := ⟨by decide, by decide⟩
    have hdomRefs : (canvas ["props.attrs", "rest"]).domRefs = .ok [] := rfl
    obtain ⟨compiled, hcompiled⟩ := exists_compile_of_plainNames (isPlain_formattedBy none)
      (canvas_isTyped ["props.attrs", "rest"]) rfl fun domRefs hfound => by
        obtain rfl := Except.ok.inj (hdomRefs.symm.trans hfound)
        rintro _ ⟨⟩
    obtain ⟨a, _, hbuild, _, c', block, hdeclares⟩ := hmodule .empty compiled rfl rfl hcompiled
    obtain ⟨source, m, hsource, hcollect, hlowered⟩ := hdeclares.lowered
    obtain rfl := Except.ok.inj hsource
    have hm := Except.ok.inj (hdomRefs.symm.trans (collect_names hcollect).2.2)
    obtain ⟨_, _, _, _, rfl⟩ := (collect_eq_ok (isPlain_formattedBy none)).mp hcollect
    obtain rfl := Except.ok.inj (hlowered.symm.trans (lowered_canvas hm.symm rfl hx))
    exact ⟨compiled, hcompiled, a, _, hbuild, hdeclares.declared _ (by decide) (by decide) (by decide)⟩

/-- A void element collects a source twice that it spreads under both its names. -/
theorem source_collected_twice : ∃ b, renderNode .start (spreadingOn "input" ["props.a", "a"] []) = .ok b ∧
    b.text = "<input spreadProps0.bind=\"a\" spreadProps0.bind=\"a\" />" ∧
    b.spreads = ["a", "a"] ∧ ¬ b.spreads.Nodup ∧
    emittedSpreads (renderedNodes (spreadingOn "input" ["props.a", "a"] [])) = ["a", "a"] := by
  refine ⟨_, rfl, rfl, rfl, ?_, rfl⟩
  decide

end Collected

end Module

end ElementCompiler
