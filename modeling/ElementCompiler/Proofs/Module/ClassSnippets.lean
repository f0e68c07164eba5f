import ElementCompiler.Proofs.Module.Compile
import ElementCompiler.Proofs.Snippet.Relocated

set_option autoImplicit false

/-!
The snippets of a class after all passes. Hooks, state and the initial values of refs go through the
pass for refs and then through the pass for members; each pass keeps what the other has settled. What
a context write publishes goes through neither: it only loses the groups of members.
-/

namespace ElementCompiler

open Attempt Text

namespace Snippet

section Fields

variable {fields : List (Text × Text)} {kept : List Text}

/-- A ref under its own name, or under its name with a low line in front. -/
structure IsRefField (f : Text × Text) : Prop where
  name : IsName f.1 ∧ f.1 ≠ "this"
  field : f.2 = f.1 ∨ f.2 = "_" ++ f.1 ∧ f.1 ∉ declarationWords

/-- With a low line in front a name declares what it declared without, unless it is itself a
    declaring word. -/
theorem declares_lowLine {name : Text} (hname : name ∉ declarationWords)
    (h : declares name.reverse = true) : declares (ofString "_" ++ name).reverse = true := by
  have hsplit : (ofString "_" ++ name).reverse = name.reverse ++ [.char '_'] := by
    simp [ofString]
  by_cases hword : ∀ c ∈ name.reverse, c.is isWord = true
  · rw [declares, List.any_eq_true, List.takeWhile_eq_self_iff.mpr hword] at h
    obtain ⟨w, hw, hsame⟩ := h
    rw [beq_iff_eq, List.reverse_inj] at hsame
    exact absurd (hsame ▸ hw) hname
  · have hshort : (name.reverse.takeWhile (·.is isWord)).length ≠ name.reverse.length := by
      intro hlen
      have hparts := congrArg List.length
        (List.takeWhile_append_dropWhile (p := fun c : CodePoint => c.is isWord) (l := name.reverse))
      rw [List.length_append] at hparts
      have hnone : name.reverse.dropWhile (·.is isWord) = [] := List.length_eq_zero_iff.mp (by omega)
      exact hword (List.dropWhile_eq_nil_iff.mp hnone)
    rwa [declares, hsplit, List.takeWhile_append, if_neg hshort]

theorem IsRefField.isName {f : Text × Text} (hf : IsRefField f) : IsName f.2 := by
  rcases hf.field with hsame | ⟨hled, _⟩
  · rw [hsame]
    exact hf.name.1
  · rw [hled]
    refine ⟨by simp [hf.name.1.1], List.forall_mem_append.mpr ⟨by decide, hf.name.1.2⟩⟩

theorem IsRefField.declares {f : Text × Text} (hf : IsRefField f)
    (h : Snippet.declares f.1.reverse = true) : Snippet.declares f.2.reverse = true := by
  rcases hf.field with hsame | ⟨hled, hword⟩
  · rwa [hsame]
  · rw [hled]
    exact declares_lowLine hword h

theorem notMem_of_isName {name : Text} (hname : IsName name) : CodePoint.char '\\' ∉ name :=
  fun hmem => absurd (hname.2 _ hmem) (by decide)

theorem settledIn_relocateEach (hfields : ∀ f ∈ fields, IsRefField f)
    (hkept : Relocatable "this" kept) {s : Text} (hs : SettledIn kept s) {x : Json}
    (h : relocateEach Module.instanceLead fields (.str s) = .ok x) :
    ∃ t, x = .str t ∧ SettledIn (fields.map Prod.fst ++ kept) t := by
  induction fields generalizing kept s with
  | nil => exact ⟨s, (Except.ok.inj h).symm, hs⟩
  | cons f fields ih =>
    obtain ⟨hf, hrest⟩ := List.forall_mem_cons.mp hfields
    obtain ⟨t, ht, h⟩ := bind_eq_ok.mp h
    have hnames : Relocatable "this" (f.1 :: kept) := List.forall_mem_cons.mpr ⟨hf.name, hkept⟩
    have hempty : ¬ f.1.isEmpty = true := by simpa using hf.name.1.1
    rw [relocateRef_eq (notMem_of_isName hf.name.1)] at ht
    have ht := Except.ok.inj ht
    rw [if_neg hempty] at ht
    -- the ref is cut down to its name everywhere before its name is led
    have hdropped := settledIn_dropped hf.name.1 (fun n hn => (hkept n hn).1) hs
    have hsettled : SettledIn (f.1 :: kept) t :=
      ht ▸ settledIn_replaceOne isName_this hnames hf.isName hf.declares hdropped
    obtain ⟨t', ht', hsettled'⟩ := ih hrest hnames hsettled h
    refine ⟨t', ht', hsettled'.of_mem fun n hn => ?_⟩
    rw [List.map_cons, List.cons_append, List.mem_cons, List.mem_append] at hn
    rw [List.mem_append, List.mem_cons]
    tauto

theorem settledIn_relocateRefs (hfields : ∀ f ∈ fields, IsRefField f) {code : Json}
    (hcode : code.IsText) {x : Json} (h : relocateRefs fields Module.instanceLead code = .ok x) :
    ∃ t, x = .str t ∧ SettledIn (fields.map Prod.fst) t := by
  obtain ⟨s, rfl⟩ := hcode
  rw [relocateRefs] at h
  split at h
  next =>
    have hnone : Relocatable "this" [] := fun n hn => absurd hn List.not_mem_nil
    obtain ⟨t, ht, hsettled⟩ := settledIn_relocateEach hfields hnone (settledIn_noNames s) h
    rw [List.append_nil] at hsettled
    exact ⟨t, ht, hsettled⟩
  next hgiven =>
    have hempty : s = [] := by
      cases s with
      | nil => rfl
      | cons c cs => exact absurd rfl hgiven
    subst hempty
    exact ⟨[], (Except.ok.inj h).symm, settledIn_nil _⟩

end Fields

end Snippet

/-- The names that code of the class reaches through `this.`: contexts read, refs, and state. -/
def Component.instanceNames (c : Component) (domRefs : List Text) : List Text :=
  Entries.keys c.context.reads ++ domRefs ++ Entries.keys c.state ++ c.valueRefs domRefs

namespace Module

open Snippet

section Mappers

variable {m : Members} {kept : List Text}

theorem relocated_classCode (hnames : Relocatable "this" (m.names ++ kept)) {s : Text}
    (hs : SettledIn kept s) :
    ∃ t, m.classCode (.str s) = .ok (.str t) ∧ Relocated (m.names ++ kept) t := by
  refine ⟨_, rfl, ?_⟩
  split
  next hempty =>
    rw [List.isEmpty_iff.mp hempty]
    exact relocated_nil _
  next => exact relocated_relocateMembers isName_this (by decide) hnames hs

theorem relocated_hookCode (hnames : Relocatable "this" (m.names ++ kept)) {callableNames : List Text}
    (hcallable : ∀ n ∈ callableNames, n ∈ m.names ++ kept) {s : Text} (hs : SettledIn kept s) :
    ∃ t, m.hookCode callableNames (.str s) = .ok (.str t) ∧ Relocated (m.names ++ kept) t := by
  obtain ⟨t, ht, hrelocated⟩ := relocated_classCode hnames hs
  refine ⟨t, ?_, hrelocated⟩
  rw [Members.hookCode, ht, ok_bind, relocateNames]
  split
  next => rfl
  next =>
    have hsame := relocate_of_settledIn isName_this (hnames.of_mem hcallable)
      (hrelocated.settled.of_mem hcallable)
    change Except.ok (Json.str (relocate (receptor "this") callableNames t)) = _
    rw [hsame]

end Mappers

section Writes

variable {names : List Text}

theorem leads_published (hthis : ofString "this" ∉ names) (hslots : ofString "$$slots" ∉ names) :
    Leads names (.withChildren instanceLead "$$slots.default") := by
  intro member hmember
  by_cases hchildren : member = "children"
  · refine ⟨"$$slots", "default", ?_, ⟨by decide, by decide⟩, hslots, ⟨by decide, by decide⟩, ?_⟩
    · rw [Receptor.withChildren, if_pos hchildren]
      rfl
    · rw [hchildren]
      decide
  · refine ⟨"this", member, ?_, isName_this, hthis, hmember, id⟩
    rw [Receptor.withChildren, if_neg hchildren]
    rfl

theorem publishedCode_of_free {s : Text} (hquote : ∀ c ∈ s, isNotQuote c = true)
    (hfree : NoReference [] s) : publishedCode (.str s) = .ok (.str s) := by
  rw [publishedCode, onGiven]
  split
  next => rfl
  next hempty =>
    have hne : s ≠ [] := fun hnone => hempty (List.isEmpty_iff.mpr hnone)
    rw [strip, mapPlain_of_noQuote hne hquote, stripFrom_of_noReference _ hfree]

/-- A name that is no group reaches no member. -/
theorem publishedCode_name {name : Text} (hname : IsName name) (hgroup : name ∉ memberGroups) :
    publishedCode (.str name) = .ok (.str name) := by
  have hfree : NoReference [] (name ++ []) :=
    .name hname rfl (Or.inr (Or.inl hgroup)) (.nil _)
  rw [List.append_nil] at hfree
  exact publishedCode_of_free (fun c hc => isNotQuote_of_continuesName (hname.2 c hc)) hfree

theorem writtenValue_reference (process : CodeMapper) {w : ContextWrite}
    (hnone : ¬ ∃ v vs, w.value = some (v :: vs)) : writtenValue process w =
      if w.ref.isGiven then process w.ref else .ok (.str "undefined") := by
  rw [writtenValue]
  split
  next v vs hes => exact absurd ⟨v, vs, hes⟩ hnone
  next => rfl

/-- What a write publishes is what it writes, without the groups of members. -/
theorem exists_published {w : ContextWrite} (href : w.ref.IsOptionalText)
    (hvalue : ∀ es, w.value = some es → ∀ e ∈ es, e.2.code.IsText) :
    ∃ source, writtenValue pure w = .ok (.str source) ∧
      writtenValue publishedCode w = publishedCode (.str source) := by
  by_cases hes : ∃ v vs, w.value = some (v :: vs)
  · obtain ⟨v, vs, hes⟩ := hes
    obtain ⟨source, hsource⟩ := exists_objectLiteral isTextMapper_pure (hvalue _ hes)
    refine ⟨source, ?_, ?_⟩
    · rw [writtenValue, hes]
      simp only [hsource, ok_bind]
      rfl
    · rw [writtenValue, hes]
      simp only [hsource, ok_bind]
  · rw [writtenValue_reference pure hes, writtenValue_reference publishedCode hes]
    by_cases hgiven : w.ref.isGiven = true
    · obtain ⟨source, hsource⟩ := href.isText hgiven
      exact ⟨source, by rw [if_pos hgiven, hsource]; rfl, by rw [if_pos hgiven, hsource]⟩
    · refine ⟨"undefined", by rw [if_neg hgiven], ?_⟩
      have hundefined : IsName (ofString "undefined") := ⟨by decide, by decide⟩
      rw [if_neg hgiven, publishedCode_name hundefined (by decide)]

theorem published_referenceFree (source : Text) :
    ∃ value, publishedCode (.str source) = .ok (.str value) ∧ ReferenceFree value ∧
      ∀ names, Relocatable "this" names → ofString "$$slots" ∉ names → SettledIn names source →
        SettledIn names value := by
  have hgroups : Leads memberGroups (.withChildren instanceLead "$$slots.default") :=
    leads_published (by decide) (by decide)
  refine ⟨_, rfl, ?_⟩
  split
  next hempty =>
    rw [List.isEmpty_iff.mp hempty]
    exact ⟨(relocated_nil []).referenceFree, fun names _ _ _ => settledIn_nil names⟩
  next =>
    refine ⟨referenceFree_strip hgroups source, fun names hnames hslots hsettled => ?_⟩
    have hthis : ofString "this" ∉ names := fun hmem => (hnames _ hmem).2 rfl
    exact settledIn_strip (leads_published hthis hslots) (fun n hn => (hnames n hn).1) hsettled

end Writes

/-- What the snippets of a class are after all passes: hooks, state and initial values of refs are
    relocated as they are put into the class; published values reach no member through its group, and
    are settled when what is written was. -/
structure ClassRelocated (m : Members) (names : List Text) (c : Component) : Prop where
  hooks : ∀ code ∈ c.hooks.codes, ∃ s, code = .str s ∧ Relocated names s
  state : ∀ e ∈ c.state, ∃ s, m.classCode e.2.code = .ok (.str s) ∧ Relocated names s
  initialValues : ∀ r ∈ c.refs, r.2.argument.isGiven = true →
    ∃ s, m.classCode r.2.argument = .ok (.str s) ∧ Relocated names s
  published : ∀ w ∈ c.context.writes, ∃ source value, writtenValue pure w = .ok (.str source) ∧
    writtenValue publishedCode w = .ok (.str value) ∧ ReferenceFree value ∧
      (ofString "$$slots" ∉ names → SettledIn names source → SettledIn names value)

section Lowered

variable {c : Component} {domRefs : List Text}

/-- The names of the component can stand behind `this.`, and no value ref is named like a word that
    declares the name after it. -/
structure NamesInstance (c : Component) (domRefs : List Text) : Prop where
  names : Relocatable "this" (c.instanceNames domRefs)
  valueRefs : ∀ n ∈ c.valueRefs domRefs, n ∉ declarationWords

theorem NamesInstance.isRefField (h : NamesInstance c domRefs) :
    ∀ f ∈ c.refFields domRefs, IsRefField f := by
  intro f hf
  rcases mem_refFields hf with ⟨hdom, hfield⟩ | ⟨hvalue, hfield⟩
  · refine ⟨h.names _ ?_, Or.inl hfield⟩
    simp [Component.instanceNames, hdom]
  · refine ⟨h.names _ ?_, Or.inr ⟨hfield, h.valueRefs _ hvalue⟩⟩
    simp [Component.instanceNames, hvalue]

section Relocated

variable {m : Members} {c' : Component}

/-- Relocation after the pass for refs reaches what neither pass reaches alone. -/
theorem relocated_initialValue {fields : List (Text × Text)} (hfields : ∀ f ∈ fields, IsRefField f)
    (hnames : Relocatable "this" (m.names ++ fields.map Prod.fst)) {before after : Json}
    (hbefore : before.IsOptionalText) (hmoved : relocateRefs fields instanceLead before = .ok after)
    (hgiven : after.isGiven = true) :
    ∃ s, m.classCode after = .ok (.str s) ∧ Relocated (m.names ++ fields.map Prod.fst) s := by
  rcases hbefore with rfl | htext
  · obtain rfl := Except.ok.inj hmoved
    cases hgiven
  · obtain ⟨s, rfl, hs⟩ := settledIn_relocateRefs hfields htext hmoved
    exact relocated_classCode hnames hs

/-- The snippets of a lowered component are relocated for the names of its members and refs. -/
theorem classRelocated_lowered (hc : c.HasTexts) (hwrites : c.context.WritesTexts)
    (hfields : ∀ f ∈ c.refFields m.domRefs, IsRefField f)
    (hnames : Relocatable "this" (m.names ++ (c.refFields m.domRefs).map Prod.fst))
    (hstate : ∀ n ∈ Entries.keys c.state, n ∈ m.names) {names : List Text}
    (hsub : ∀ n ∈ names, n ∈ m.names ++ (c.refFields m.domRefs).map Prod.fst)
    (hlowered : lowered .empty m c = .ok c') : ClassRelocated m names c' := by
  obtain ⟨c₁, hrefs, hvisit⟩ := lowered_eq_ok.mp hlowered
  have hfirst := visited_of_mapRefs hc hrefs
  have hsecond := Visitor.visited_of_visit hvisit
  refine ⟨fun code hcode => ?hooks, fun e he => ?state, fun r hr hgiven => ?initialValues,
    fun w hw => ?published⟩
  case hooks =>
    obtain ⟨code₁, hcode₁, hstep⟩ := hsecond.hooks code hcode
    obtain ⟨code₀, hcode₀, hmoved⟩ := hfirst.hooks code₁ hcode₁
    obtain ⟨s, rfl, hs⟩ := settledIn_relocateRefs hfields (hc.hooks code₀ hcode₀) hmoved
    have hcallable : ∀ n ∈ c₁.callableNames, n ∈ m.names ++ (c.refFields m.domRefs).map Prod.fst := by
      intro n hn
      obtain ⟨e, he, rfl⟩ := List.mem_map.mp hn
      have hkey : e.1 ∈ Entries.keys c₁.state := List.mem_map_of_mem (List.mem_of_mem_filter he)
      rw [Visitor.keys_visited hfirst.state] at hkey
      exact List.mem_append_left _ (hstate _ hkey)
    obtain ⟨t, ht, hrelocated⟩ := relocated_hookCode hnames hcallable hs
    exact ⟨t, Except.ok.inj (hstep.symm.trans ht), hrelocated.of_mem hsub⟩
  case state =>
    obtain ⟨e₁, he₁, _, hstep⟩ := exists_left hsecond.state e he
    obtain ⟨e₀, he₀, _, hmoved⟩ := exists_left hfirst.state e₁ he₁
    obtain ⟨code, hcode, hvalue⟩ := Visitor.visitState_eq_ok.mp hstep
    obtain ⟨code₁, hcode₁, hvalue₁⟩ := Visitor.visitState_eq_ok.mp hmoved
    obtain ⟨s, rfl, hs⟩ := settledIn_relocateRefs hfields (hc.state e₀ he₀) hcode₁
    have hsame : Except.ok e₁.2.code = Except.ok code := hcode
    obtain ⟨t, ht, hrelocated⟩ := relocated_classCode hnames hs
    rw [hvalue, ← Except.ok.inj hsame, hvalue₁]
    exact ⟨t, ht, hrelocated.of_mem hsub⟩
  case initialValues =>
    obtain ⟨r₁, hr₁, _, hstep⟩ := exists_left hsecond.refs r hr
    obtain ⟨r₀, hr₀, _, hmoved⟩ := exists_left hfirst.refs r₁ hr₁
    obtain ⟨argument, hargument, hvalue⟩ := Visitor.visitRef_eq_ok.mp hstep
    obtain ⟨argument₁, hargument₁, hvalue₁⟩ := Visitor.visitRef_eq_ok.mp hmoved
    have hsame : Except.ok r₁.2.argument = Except.ok argument := hargument
    rw [hvalue, ← Except.ok.inj hsame, hvalue₁] at hgiven ⊢
    obtain ⟨t, ht, hrelocated⟩ :=
      relocated_initialValue hfields hnames (hc.refs r₀ hr₀) hargument₁ hgiven
    exact ⟨t, ht, hrelocated.of_mem hsub⟩
  case published =>
    have hcontext : c'.context = c.context := by rw [lowered_rest hlowered]
    rw [hcontext] at hw
    obtain ⟨href, hvalue⟩ := hwrites w hw
    obtain ⟨source, hsource, hpublished⟩ := exists_published href hvalue
    obtain ⟨value, hvalue, hfree, hsettled⟩ := published_referenceFree source
    exact ⟨source, value, hsource, hpublished.trans hvalue, hfree, hsettled _ (hnames.of_mem hsub)⟩

end Relocated

end Lowered

/-- Every component whose names can stand behind `this.` is lowered, and what comes into its class is
    relocated: every hook, every state and every initial value of a ref for all names of the
    component, and what its context writes publish as far as what they write is. -/
theorem class_snippets_relocated (formatter : Option Formatter) {c : Component} (hc : c.HasTexts)
    (hwrites : c.context.WritesTexts) (hprops : ∀ p ∈ c.props, p.IsText) {domRefs : List Text}
    (hdomRefs : c.domRefs = .ok domRefs) (hinstance : NamesInstance c domRefs) :
    ∃ m c', Members.collect (formattedBy formatter) c = .ok m ∧ lowered .empty m c = .ok c' ∧
      ClassRelocated m (c.instanceNames domRefs) c' := by
  obtain ⟨m, hcollect, hmembers, _, _, hm⟩ :=
    exists_collect (isPlain_formattedBy formatter) hc hwrites hprops
  obtain rfl := Except.ok.inj (hm.symm.trans hdomRefs)
  have hfields := hinstance.isRefField
  have hplain : ∀ f ∈ c.refFields m.domRefs, CodePoint.char '\\' ∉ f.1 :=
    fun f hf => notMem_of_isName (hfields f hf).name.1
  obtain ⟨c', hlowered⟩ := (exists_lowered m hc).mpr fun _ => areTemplates_of_plain hplain
  refine ⟨m, c', hcollect, hlowered, classRelocated_lowered hc hwrites hfields ?_ ?_ ?_ hlowered⟩
  · refine List.forall_mem_append.mpr ⟨fun n hn => hinstance.names n ?_, fun n hn => ?_⟩
    · rw [hmembers] at hn
      exact List.mem_append_left _ hn
    · obtain ⟨f, hf, rfl⟩ := List.mem_map.mp hn
      exact (hfields f hf).name
  · intro n hn
    rw [hmembers]
    exact List.mem_append_right _ hn
  · intro n hn
    rw [hmembers]
    rcases List.mem_append.mp hn with hn | hn
    · exact List.mem_append_left _ hn
    · exact List.mem_append_right _ (mem_refFields_of_valueRefs hn)

/-- A context that is read, kept in a ref, and written again. -/
def themed : Component where
  name := .str "Themed"
  children := [⟨.str "p", [], [], [], .empty, none, []⟩]
  state := [("total", ⟨.str "0", .data⟩)]
  props := []
  propsTypeRef := .null
  defaultProps := []
  refs := [("timer", ⟨.str "theme", .null⟩)]
  hooks := ⟨some (.str "timer.current = theme"), none, [], none⟩
  context := ⟨[("theme", ⟨.str "ThemeContext", .null⟩)],
    [⟨.str "ThemeContext", none, .str "theme", .null⟩]⟩
  imports := []
  exports := []
  metadata := []
  types := []
  css := .null

theorem themed_hasTexts : themed.HasTexts where
  hooks := List.forall_mem_singleton.mpr ⟨_, rfl⟩
  deps := by rintro _ ⟨⟩
  state := List.forall_mem_singleton.mpr ⟨_, rfl⟩
  refs := List.forall_mem_singleton.mpr (.inr ⟨_, rfl⟩)
  nodes := List.forall_mem_singleton.mpr ⟨⟨_, rfl⟩, by rintro _ ⟨⟩, by rintro _ ⟨⟩⟩

theorem themed_writes : themed.context.WritesTexts :=
  List.forall_mem_singleton.mpr ⟨.inr ⟨_, rfl⟩, fun _ hnone => by cases hnone⟩

theorem themed_names : NamesInstance themed [] where
  names := by
    unfold Relocatable IsName
    decide
  valueRefs := by decide

theorem class_snippets_relocated_themed : ∃ m c',
    Members.collect (formattedBy none) themed = .ok m ∧ lowered .empty m themed = .ok c' ∧
      ClassRelocated m ["theme", "total", "timer"] c' :=
  class_snippets_relocated none themed_hasTexts themed_writes (by rintro _ ⟨⟩) rfl themed_names

theorem not_relocated_name {names : List Text} {name : Text} (hname : IsName name)
    (hmem : name ∈ names) : ¬ Relocated names name := by
  intro hrelocated
  have hquote : ∀ c ∈ name, isNotQuote c = true := fun c hc =>
    isNotQuote_of_continuesName (hname.2 c hc)
  have hsegments : segments (name ++ []) = .plain name :: segments [] :=
    segments_run_append hname.1 hquote (by rintro _ _ ⟨⟩)
  rw [List.append_nil] at hsegments
  have hsettled := hrelocated.settled name (by rw [hsegments]; exact List.mem_cons_self)
  have hoccurs : occursAt? name [] (name ++ []) = some [] := by
    rw [occursAt?_name hname hname rfl rfl, if_pos rfl]
  rw [List.append_nil] at hoccurs
  have hbinding : isBindingPosition [] [] = true := hsettled [] name name [] rfl hmem hoccurs
  exact absurd hbinding (by decide)

/-- A written reference to a member is published by its bare name, which the class does not know. -/
theorem written_member_not_relocated :
    NamesInstance themed [] ∧ ofString "theme" ∈ themed.instanceNames [] ∧
      (∃ m c', Members.collect (formattedBy none) themed = .ok m ∧
        lowered .empty m themed = .ok c' ∧
        ∀ w ∈ c'.context.writes, writtenValue publishedCode w = .ok (.str "theme")) ∧
      ¬ Relocated (themed.instanceNames []) "theme" := by
  have htheme : IsName (ofString "theme") := ⟨by decide, by decide⟩
  have hmem : ofString "theme" ∈ themed.instanceNames [] := by decide
  obtain ⟨m, hcollect, _, _, _, hm⟩ :=
    exists_collect (isPlain_formattedBy none) themed_hasTexts themed_writes (by rintro _ ⟨⟩)
  have hnone : themed.domRefs = .ok [] := rfl
  have hdomRefs := Except.ok.inj (hnone.symm.trans hm)
  have hfields : ∀ f ∈ themed.refFields m.domRefs, CodePoint.char '\\' ∉ f.1 := by
    rw [← hdomRefs]
    decide
  obtain ⟨c', hlowered⟩ :=
    (exists_lowered m themed_hasTexts).mpr fun _ => areTemplates_of_plain hfields
  have hcontext : c'.context = themed.context := by rw [lowered_rest hlowered]
  refine ⟨themed_names, hmem, ⟨m, c', hcollect, hlowered, ?_⟩, not_relocated_name htheme hmem⟩
  rw [hcontext]
  exact List.forall_mem_singleton.mpr (publishedCode_name htheme (by decide))

end Module
end ElementCompiler
