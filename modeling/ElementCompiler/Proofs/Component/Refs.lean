import ElementCompiler.Component.Names
import ElementCompiler.Component.Refs
import ElementCompiler.Proofs.Component.Passes
import ElementCompiler.Proofs.Component.Texts
import ElementCompiler.Proofs.Snippet.Blank

set_option autoImplicit false

/-!
Relocating refs. The name of a ref is read as a replacement template, so the relocation of a snippet
goes through exactly when every name is one; names without a backslash are, and with them no snippet
becomes blank.
-/

namespace ElementCompiler

open Attempt Text

namespace Snippet

section Relocation

variable {fields : List (Text × Text)} {lead : Text}

def AreTemplates (fields : List (Text × Text)) : Prop :=
  ∀ f ∈ fields, ∃ parts, template f.1 = .ok parts

theorem exists_relocateRef (lead name field s : Text) :
    (∃ t, relocateRef lead name field (.str s) = .ok t) ↔ ∃ parts, template name = .ok parts :=
  (exists_return _).trans (exists_return _)

theorem exists_relocateEach (s : Text) :
    (∃ x, relocateEach lead fields (.str s) = .ok x) ↔ AreTemplates fields := by
  induction fields generalizing s with
  | nil => exact ⟨fun _ f hf => absurd hf List.not_mem_nil, fun _ => ⟨_, rfl⟩⟩
  | cons f fields ih =>
    obtain ⟨name, field⟩ := f
    rw [AreTemplates, List.forall_mem_cons, ← exists_relocateRef lead name field s]
    exact exists_seq fun t => ih t

theorem relocateEach_isText {s : Text} {x : Json} (h : relocateEach lead fields (.str s) = .ok x) :
    x.IsText := by
  induction fields generalizing s with
  | nil => exact ⟨s, (Except.ok.inj h).symm⟩
  | cons f fields ih =>
    obtain ⟨t, _, h⟩ := bind_eq_ok.mp h
    exact ih h

theorem exists_relocateRefs {code : Json} (hcode : code.IsOptionalText) :
    (∃ x, relocateRefs fields lead code = .ok x) ↔ (code.isGiven = true → AreTemplates fields) := by
  rw [relocateRefs]
  split
  next hgiven =>
    obtain ⟨s, rfl⟩ := hcode.isText hgiven
    rw [exists_relocateEach]
    exact ⟨fun h _ => h, fun h => h hgiven⟩
  next hgiven => exact ⟨fun _ h => absurd h hgiven, fun _ => ⟨code, rfl⟩⟩

theorem relocateRefs_isText {code x : Json} (h : relocateRefs fields lead code = .ok x)
    (hcode : code.IsText) : x.IsText := by
  rw [relocateRefs] at h
  split at h
  next =>
    obtain ⟨s, rfl⟩ := hcode
    exact relocateEach_isText h
  next =>
    obtain rfl := Except.ok.inj h
    exact hcode

theorem relocateRefs_isOptionalText {code x : Json} (h : relocateRefs fields lead code = .ok x)
    (hcode : code.IsOptionalText) : x.IsOptionalText := by
  rcases hcode with rfl | hcode
  · exact .inl (Except.ok.inj h).symm
  · exact .inr (relocateRefs_isText h hcode)

/-- A name that stands for itself as a template and is not blank. -/
def IsPlainName (name : Text) : Prop := CodePoint.char '\\' ∉ name ∧ isBlankText name = false

/-- The relocation of a ref whose name stands for itself. -/
theorem relocateRef_eq {name : Text} (hname : CodePoint.char '\\' ∉ name) (lead field s : Text) :
    relocateRef lead name field (.str s) =
      let dropped := substitute (name ++ ".current") (fun _ _ => name) s
      .ok (if name.isEmpty then dropped else replaceOne (lead ++ field) name dropped) := by
  have hexpand : ∀ occurrence, expand (name.map fun c => .text [c]) occurrence = name := by
    intro occurrence
    rw [expand, List.flatMap_map]
    exact List.flatMap_singleton' name
  rw [relocateRef, dropCurrent, template_of_notMem hname]
  simp only [ok_bind, hexpand]
  rfl

theorem relocateRef_notBlank {name field s t : Text} (hname : IsPlainName name)
    (hfield : isBlankText field = false) (h : relocateRef lead name field (.str s) = .ok t)
    (hs : isBlankText s = false) : isBlankText t = false := by
  rw [relocateRef_eq hname.1] at h
  obtain rfl := Except.ok.inj h
  have hdropped := keepsInk_substitute (name ++ ".current") (fun _ _ => hname.2) s hs
  split
  next => exact hdropped
  next =>
    refine keepsInk_mapPlain (keepsInk_substitute name fun before after => ?_) _ hdropped
    split
    next => exact hname.2
    next => rw [isBlankText_append, hfield, Bool.and_false]

theorem relocateEach_notBlank (hfields : ∀ f ∈ fields, IsPlainName f.1 ∧ isBlankText f.2 = false)
    {s : Text} {x : Json} (h : relocateEach lead fields (.str s) = .ok x)
    (hs : isBlankText s = false) : ∃ t, x = .str t ∧ isBlankText t = false := by
  induction fields generalizing s with
  | nil => exact ⟨s, (Except.ok.inj h).symm, hs⟩
  | cons f fields ih =>
    obtain ⟨hf, hrest⟩ := List.forall_mem_cons.mp hfields
    obtain ⟨t, ht, h⟩ := bind_eq_ok.mp h
    exact ih hrest h (relocateRef_notBlank hf.1 hf.2 ht hs)

theorem areTemplates_of_plain (hfields : ∀ f ∈ fields, CodePoint.char '\\' ∉ f.1) :
    AreTemplates fields := fun f hf => ⟨_, template_of_notMem (hfields f hf)⟩

end Relocation
end Snippet

theorem onBindingCode_eq_ok {f : Json → Attempt Json} {b : Binding} {b' : Option Binding} :
    onBindingCode f (some b) = .ok b' ↔ ∃ code, f b.code = .ok code ∧ b' = some { b with code } := by
  rw [onBindingCode, bind_eq_ok]
  exact exists_congr fun code => and_congr_right fun _ => ⟨fun h => (Except.ok.inj h).symm,
    fun h => by rw [h]; rfl⟩

def refSteps (fields : List (Text × Text)) (lead : Text) : Visitor Attempt where
  hook := Snippet.relocateRefs fields lead
  deps := pure
  state := Snippet.relocateRefs fields lead
  refArgument := Snippet.relocateRefs fields lead
  binding := fun key b =>
    if key == "ref" then pure b else onBindingCode (Snippet.relocateRefs fields "") b
  property := pure

section Steps

variable {fields : List (Text × Text)} {lead : Text}

theorem refVisitor_runs : (refVisitor fields lead).Runs (refSteps fields lead) where
  hook := Pass.runs_step _
  deps := Pass.runs_pure
  state := Pass.runs_step _
  refArgument := Pass.runs_step _
  binding key b := by
    unfold refVisitor refSteps
    dsimp only
    split
    next => exact Pass.runs_pure b
    next => exact Pass.runs_step _ b
  property := Pass.runs_pure

theorem refSteps_keepsTexts : (refSteps fields lead).KeepsTexts where
  hook := Snippet.relocateRefs_isText
  deps h hds := by
    obtain rfl := Except.ok.inj h
    exact hds
  state := Snippet.relocateRefs_isText
  refArgument := Snippet.relocateRefs_isOptionalText
  binding {key b b'} h hb := by
    change (if key == "ref" then pure (some b) else onBindingCode _ (some b)) = .ok b' at h
    split at h
    next => exact ⟨b, (Except.ok.inj h).symm, hb⟩
    next =>
      obtain ⟨code, hcode, rfl⟩ := onBindingCode_eq_ok.mp h
      exact ⟨_, rfl, Snippet.relocateRefs_isText hcode hb.code, hb.rawCode, hb.arguments⟩
  property h hj := by
    obtain rfl := Except.ok.inj h
    exact hj

end Steps

section Fields

variable {c : Component} {domRefs : List Text}

theorem mem_refFields {f : Text × Text} (hf : f ∈ c.refFields domRefs) :
    f.1 ∈ domRefs ∧ f.2 = f.1 ∨ f.1 ∈ c.valueRefs domRefs ∧ f.2 = "_" ++ f.1 := by
  obtain ⟨name, hname, rfl⟩ := List.mem_map.mp hf
  by_cases hdom : name ∈ domRefs
  · exact Or.inl ⟨hdom, if_pos (List.contains_iff_mem.mpr hdom)⟩
  · have hnot : domRefs.contains name = false := by
      rwa [Bool.eq_false_iff, ne_eq, List.contains_iff_mem]
    refine Or.inr ⟨?_, by rw [hnot]; rfl⟩
    rcases List.mem_append.mp hname with hname | hname
    · exact List.mem_filter.mpr ⟨hname, by rw [hnot]; rfl⟩
    · exact absurd (List.mem_of_mem_filter (List.mem_eraseDups.mp hname)) hdom

/-- Without refs of its own and refs in its nodes a component has no fields for refs. -/
theorem Component.forall_refFields_of_none {P : Text × Text → Prop} (hrefs : c.refs = [])
    (hnone : c.domRefs = .ok []) :
    ∀ domRefs, c.domRefs = .ok domRefs → ∀ f ∈ c.refFields domRefs, P f := by
  intro domRefs hdomRefs f hf
  obtain rfl := Except.ok.inj (hnone.symm.trans hdomRefs)
  rw [Component.refFields, hrefs] at hf
  cases hf

theorem mem_refFields_of_valueRefs {name : Text} (hname : name ∈ c.valueRefs domRefs) :
    name ∈ (c.refFields domRefs).map Prod.fst := by
  have hdeclared : name ∈ Entries.keys c.refs := List.mem_of_mem_filter hname
  exact List.mem_map.mpr ⟨_, List.mem_map_of_mem (List.mem_append_left _ hdeclared), rfl⟩

theorem Component.mem_refNames_of_domRefs {name : Text} (h : name ∈ domRefs) :
    name ∈ (c.refFields domRefs).map Prod.fst := by
  rw [Component.refFields, List.map_map]
  refine List.mem_map.mpr ⟨name, ?_, rfl⟩
  by_cases hdeclared : name ∈ Entries.keys c.refs
  · exact List.mem_append_left _ hdeclared
  · refine List.mem_append_right _ (List.mem_eraseDups.mpr (List.mem_filter.mpr ⟨h, ?_⟩))
    simpa using hdeclared

end Fields

/-- The code of a binding, unless the binding declares a ref. -/
def relocatedCode? (b : Text × Option Binding) : Option Json :=
  if b.1 == "ref" then none else b.2.map Binding.code

/-- The snippets that the relocation of refs rewrites. -/
def Component.relocatedCodes (c : Component) : List Json :=
  c.hooks.codes ++ Component.stateCodes c.state ++
    (Entries.values c.refs).map RefSpec.argument ++
    c.nodes.flatMap fun n => n.bindings.filterMap relocatedCode?

/-- Each name of a ref is a template, unless no snippet is rewritten. -/
def Component.RefsRelocate (c : Component) (domRefs : List Text) : Prop :=
  (∃ code ∈ c.relocatedCodes, code.isGiven = true) → Snippet.AreTemplates (c.refFields domRefs)

section Relocated

variable {c : Component} {fields : List (Text × Text)} {lead : Text}

theorem mem_relocatedCodes {code : Json} : code ∈ c.relocatedCodes ↔
    code ∈ c.hooks.codes ∨ (∃ s ∈ c.state, s.2.code = code) ∨
      (∃ r ∈ c.refs, r.2.argument = code) ∨
        ∃ n ∈ c.nodes, ∃ b ∈ n.bindings, relocatedCode? b = some code := by
  simp only [Component.relocatedCodes, Component.stateCodes, Entries.values, List.map_map,
    List.mem_append, List.mem_map, List.mem_flatMap, List.mem_filterMap, Function.comp_apply,
    or_assoc]

theorem relocatedCode?_eq_some {key : Text} (hkey : (key == "ref") = false) (b : Binding) :
    relocatedCode? (key, some b) = some b.code := by
  rw [relocatedCode?, if_neg (by simp [hkey])]
  rfl

/-- The relocation goes through exactly when each name is a template, or nothing is rewritten. -/
theorem ready_refSteps (hc : c.HasTexts) : Visitor.Ready (refSteps fields lead) c ↔
    ((∃ code ∈ c.relocatedCodes, code.isGiven = true) → Snippet.AreTemplates fields) := by
  constructor
  · rintro h ⟨code, hcode, hgiven⟩
    rcases mem_relocatedCodes.mp hcode with hcode | ⟨s, hs, rfl⟩ | ⟨r, hr, rfl⟩ | ⟨n, hn, b, hb, hcode⟩
    · exact (Snippet.exists_relocateRefs (.inr (hc.hooks code hcode))).mp (h.hooks code hcode) hgiven
    · exact (Snippet.exists_relocateRefs (.inr (hc.state s hs))).mp (h.state s hs) hgiven
    · exact (Snippet.exists_relocateRefs (hc.refs r hr)).mp (h.refs r hr) hgiven
    · obtain ⟨key, b⟩ := b
      obtain ⟨x, rfl, hx⟩ := (hc.nodes n hn).bindings _ hb
      cases hkey : key == Text.ofString "ref" with
      | true =>
        rw [relocatedCode?, if_pos hkey] at hcode
        cases hcode
      | false =>
        rw [relocatedCode?_eq_some hkey] at hcode
        obtain rfl := Option.some.inj hcode
        obtain ⟨b', hb'⟩ := (h.nodes n hn).1 _ hb
        change (if key == "ref" then pure (some x) else onBindingCode _ (some x)) = .ok b' at hb'
        rw [if_neg (by simp [hkey])] at hb'
        obtain ⟨code, hcode, _⟩ := onBindingCode_eq_ok.mp hb'
        exact (Snippet.exists_relocateRefs (.inr hx.code)).mp ⟨code, hcode⟩ hgiven
  · intro h
    have hstep : ∀ lead code, code ∈ c.relocatedCodes → code.IsOptionalText →
        ∃ x, Snippet.relocateRefs fields lead code = .ok x := fun lead code hcode htext =>
      (Snippet.exists_relocateRefs htext).mpr fun hgiven => h ⟨code, hcode, hgiven⟩
    refine ⟨fun code hcode => ?_, fun u _ => ⟨u.deps, rfl⟩, fun s hs => ?_, fun r hr => ?_,
      fun n hn => ⟨fun b hb => ?_, fun p _ => ⟨p.2, rfl⟩⟩⟩
    · exact hstep lead code (mem_relocatedCodes.mpr (.inl hcode)) (.inr (hc.hooks code hcode))
    · exact hstep lead _ (mem_relocatedCodes.mpr (.inr (.inl ⟨s, hs, rfl⟩))) (.inr (hc.state s hs))
    · exact hstep lead _ (mem_relocatedCodes.mpr (.inr (.inr (.inl ⟨r, hr, rfl⟩)))) (hc.refs r hr)
    · obtain ⟨key, b⟩ := b
      obtain ⟨x, rfl, hx⟩ := (hc.nodes n hn).bindings _ hb
      change ∃ b', (if key == "ref" then pure (some x) else onBindingCode _ (some x)) = .ok b'
      split
      next => exact ⟨some x, rfl⟩
      next hkey =>
        have hcode : relocatedCode? (key, some x) = some x.code :=
          relocatedCode?_eq_some (by simpa using hkey) x
        obtain ⟨code, hcode⟩ := hstep "" x.code
          (mem_relocatedCodes.mpr (.inr (.inr (.inr ⟨n, hn, _, hb, hcode⟩)))) (.inr hx.code)
        exact ⟨_, onBindingCode_eq_ok.mpr ⟨code, hcode, rfl⟩⟩

/-- Without refs the component is as if it had been visited. -/
theorem visited_noFields (hc : c.HasTexts) : Visitor.Visited (refSteps [] lead) c c := by
  have hsame : ∀ lead code, Snippet.relocateRefs [] lead code = .ok code := by
    intro lead code
    rw [Snippet.relocateRefs]
    split <;> rfl
  refine ⟨fun code hcode => ⟨code, hcode, hsame lead code⟩, fun u hu => ⟨u, hu, rfl⟩,
    List.forall₂_same.mpr fun s _ => ⟨rfl, ?_⟩, List.forall₂_same.mpr fun r _ => ⟨rfl, ?_⟩,
    List.forall₂_same.mpr fun n hn => ⟨rfl, rfl, ?_, ?_⟩, rfl⟩
  · exact Visitor.visitState_eq_ok.mpr ⟨s.2.code, hsame lead s.2.code, rfl⟩
  · exact Visitor.visitRef_eq_ok.mpr ⟨r.2.argument, hsame lead r.2.argument, rfl⟩
  · refine List.forall₂_same.mpr fun b hb => ⟨rfl, ?_⟩
    obtain ⟨x, hx, _⟩ := (hc.nodes n hn).bindings b hb
    rw [hx]
    change (if b.1 == "ref" then pure (some x) else onBindingCode _ (some x)) = .ok (some x)
    split
    next => rfl
    next => exact onBindingCode_eq_ok.mpr ⟨x.code, hsame "" x.code, rfl⟩
  · exact List.forall₂_same.mpr fun p _ => ⟨rfl, rfl⟩

theorem mapRefs_toAttempt (domRefs : List Text) (hfields : c.refFields domRefs ≠ []) :
    (c.mapRefs domRefs lead).toAttempt = Visitor.visit (refSteps (c.refFields domRefs) lead) c := by
  rw [Component.mapRefs, if_neg (by simpa using hfields)]
  exact Visitor.edit_toAttempt refVisitor_runs c

theorem mapRefs_noFields {domRefs : List Text} (hfields : c.refFields domRefs = []) :
    (c.mapRefs domRefs lead).toAttempt = .ok c := by
  rw [Component.mapRefs, if_pos (by simp [hfields])]
  rfl

theorem exists_mapRefs (lead : Text) (hc : c.HasTexts) (domRefs : List Text) :
    (∃ c', (c.mapRefs domRefs lead).toAttempt = .ok c') ↔ c.RefsRelocate domRefs := by
  by_cases hfields : c.refFields domRefs = []
  · rw [mapRefs_noFields hfields, Component.RefsRelocate, hfields]
    exact ⟨fun _ _ f hf => absurd hf List.not_mem_nil, fun _ => ⟨c, rfl⟩⟩
  · rw [mapRefs_toAttempt domRefs hfields, Visitor.exists_visit, ready_refSteps hc]
    exact Iff.rfl

theorem visited_of_mapRefs (hc : c.HasTexts) {domRefs : List Text} {c' : Component}
    (h : (c.mapRefs domRefs lead).toAttempt = .ok c') :
    Visitor.Visited (refSteps (c.refFields domRefs) lead) c c' := by
  by_cases hfields : c.refFields domRefs = []
  · rw [mapRefs_noFields hfields] at h
    obtain rfl := Except.ok.inj h
    rw [hfields]
    exact visited_noFields hc
  · rw [mapRefs_toAttempt domRefs hfields] at h
    exact Visitor.visited_of_visit h

theorem mapRefs_rest {domRefs : List Text} {c' : Component}
    (h : (c.mapRefs domRefs lead).toAttempt = .ok c') : c' = { c with
      hooks := c'.hooks, state := c'.state, refs := c'.refs, children := c'.children } := by
  by_cases hfields : c.refFields domRefs = []
  · rw [mapRefs_noFields hfields] at h
    obtain rfl := Except.ok.inj h
    rfl
  · rw [mapRefs_toAttempt domRefs hfields] at h
    exact (Visitor.visited_of_visit h).rest

end Relocated
end ElementCompiler
