import ElementCompiler.Proofs.Component.Rewriting
import ElementCompiler.Proofs.Module.Lowering

set_option autoImplicit false

/-!
The two passes that change a component in place. The processing of code rewrites each snippet by the
function of its category, and the relocation of refs rewrites hooks, state, initial values of refs
and the bindings that do not declare a ref. Nothing else changes, also when a fault cuts the pass
short.
-/

namespace ElementCompiler

open Attempt
open Text (ofString)

/-- Each snippet becomes what the function of its category makes of it. -/
def CodeProcessor.rewriting (p : CodeProcessor) : Rewriting where
  hook old new := p .hooks old = .ok new
  deps := List.Forall₂ fun old new => p .hooksDeps old = .ok new
  state old new := p .state old = .ok new
  refArgument old new := new = old
  binding _ old new := p .bindings old = .ok new
  property old new := p .properties old = .ok new

/-- Each snippet with refs relocated, in bindings without the receptor; dependencies of updates,
    literal attributes and the bindings that declare a ref stay. -/
def refRewriting (fields : List (Text × Text)) (lead : Text) : Rewriting where
  hook old new := Snippet.relocateRefs fields lead old = .ok new
  deps old new := new = old
  state old new := Snippet.relocateRefs fields lead old = .ok new
  refArgument old new := Snippet.relocateRefs fields lead old = .ok new
  binding key old new :=
    if key == "ref" then new = old else Snippet.relocateRefs fields "" old = .ok new
  property old new := new = old

/-- The function of each category accepts each snippet of it, and no binding was taken away. -/
structure CodeProcessor.Accepts (p : CodeProcessor) (c : Component) : Prop where
  hooks : ∀ code ∈ c.hooks.codes, ∃ x, p .hooks code = .ok x
  deps : ∀ u ∈ c.hooks.onUpdate, ∀ d ∈ u.deps, ∃ x, p .hooksDeps d = .ok x
  state : ∀ s ∈ c.state, ∃ x, p .state s.2.code = .ok x
  bindings : ∀ n ∈ c.nodes, ∀ b ∈ n.bindings, ∃ x code, b.2 = some x ∧ p .bindings x.code = .ok code
  properties : ∀ n ∈ c.nodes, ∀ j ∈ n.properties, ∃ x, p .properties j.2 = .ok x

theorem fault_eq_none_iff (e : Edited) : e.fault = none ↔ ∃ c, e.toAttempt = .ok c := by
  rw [Edited.toAttempt]
  cases e.fault with
  | none => exact ⟨fun _ => ⟨_, rfl⟩, fun _ => rfl⟩
  | some fault =>
    constructor
    · intro h
      cases h
    · rintro ⟨_, h⟩
      cases h

theorem toAttempt_of_fault {e : Edited} (h : e.fault = none) : e.toAttempt = .ok e.component := by
  rw [Edited.toAttempt, h]

namespace Rewriting

theorem OfBinding.of_code {r : Rewriting} {key : Text} {f : Json → Attempt Json}
    (h : ∀ code x, f code = .ok x → r.binding key code x) (b : Option Binding) :
    Attempt.promise.Keeps (onBindingCode f b) (OfBinding r key b) := by
  intro b' hb
  cases b with
  | none => cases hb
  | some b =>
    obtain ⟨code, hcode, rfl⟩ := onBindingCode_eq_ok.mp hb
    exact .some ⟨h b.code code hcode, rfl⟩

/-- A step on the code of a binding either changes the code or leaves the binding. -/
theorem OfBinding.of_step {r : Rewriting} {key : Text} {f : Json → Attempt Json}
    (h : ∀ code x, f code = .ok x → r.binding key code x) (b : Option Binding) :
    Pass.promise.Keeps (Pass.step (onBindingCode f) b) (OfBinding r.orSame key b) := by
  intro fault
  rcases Pass.keeps_step (onBindingCode f) b fault with hb | hb
  · exact of_code (fun code x hx => Or.inl (h code x hx)) b _ hb
  · rw [hb]
    exact .same (fun _ => Or.inr rfl) b

end Rewriting

section Passes

variable {p : CodeProcessor} {fields : List (Text × Text)} {lead : Text}

theorem CodeProcessor.steps_follow : Visitor.Follows Attempt.promise p.steps p.rewriting where
  hook _ _ h := h
  deps _ _ h := mapM_eq_ok.mp h
  state _ _ h := h
  refArgument _ := Attempt.promise.pure rfl
  binding _ := .of_code fun _ _ h => h
  property _ _ h := h

theorem CodeProcessor.visitor_follows :
    Visitor.Follows Pass.promise p.visitor p.rewriting.orSame where
  hook := Pass.keeps_step (p .hooks)
  deps deps fault := (Pass.keeps_step _ deps fault).imp_left mapM_eq_ok.mp
  state := Pass.keeps_step (p .state)
  refArgument _ := Pass.promise.pure (.inr rfl)
  binding _ := .of_step fun _ _ h => h
  property := Pass.keeps_step (p .properties)

theorem refSteps_follow :
    Visitor.Follows Attempt.promise (refSteps fields lead) (refRewriting fields lead) where
  hook _ _ h := h
  deps _ := Attempt.promise.pure rfl
  state _ _ h := h
  refArgument _ _ h := h
  binding key b := by
    unfold refSteps
    dsimp only
    split
    next hkey => exact Attempt.promise.pure (.same (fun _ => (if_pos hkey).mpr rfl) b)
    next hkey => exact .of_code (fun _ _ h => (if_neg hkey).mpr h) b
  property _ := Attempt.promise.pure rfl

theorem refVisitor_follows :
    Visitor.Follows Pass.promise (refVisitor fields lead) (refRewriting fields lead).orSame where
  hook := Pass.keeps_step _
  deps _ := Pass.promise.pure (.inr rfl)
  state := Pass.keeps_step _
  refArgument := Pass.keeps_step _
  binding key b := by
    unfold refVisitor
    dsimp only
    split
    next hkey => exact Pass.promise.pure (.same (fun _ => Or.inr rfl) b)
    next hkey => exact .of_step (fun _ _ h => (if_neg hkey).mpr h) b
  property _ := Pass.promise.pure (.inr rfl)

theorem refRewriting_noFields : (refRewriting [] lead).IsReflexive := by
  have hsame (lead : Text) (code : Json) : Snippet.relocateRefs [] lead code = .ok code := by
    rw [Snippet.relocateRefs]
    split <;> rfl
  refine ⟨hsame lead, fun _ => rfl, hsame lead, hsame lead, fun key code => ?_, fun _ => rfl⟩
  change if key == "ref" then code = code else Snippet.relocateRefs [] "" code = .ok code
  split
  next => rfl
  next => exact hsame "" code

end Passes

namespace Component

variable {p : CodeProcessor} {domRefs : List Text} {lead : Text} {c : Component}

theorem accepts_iff_ready : p.Accepts c ↔ p.steps.Ready c := by
  constructor
  · intro h
    refine ⟨h.hooks, fun u hu => exists_mapM (h.deps u hu), h.state, fun r _ => ⟨r.2.argument, rfl⟩,
      fun n hn => ⟨fun b hb => ?_, h.properties n hn⟩⟩
    obtain ⟨x, code, hx, hcode⟩ := h.bindings n hn b hb
    exact ⟨some { x with code }, by rw [hx]; exact onBindingCode_eq_ok.mpr ⟨code, hcode, rfl⟩⟩
  · intro h
    refine ⟨h.hooks, fun u hu d hd => ?_, h.state, fun n hn b hb => ?_, fun n hn => (h.nodes n hn).2⟩
    · obtain ⟨ds, hds⟩ := h.deps u hu
      obtain ⟨x, _, hx⟩ := exists_right (mapM_eq_ok.mp hds) d hd
      exact ⟨x, hx⟩
    · obtain ⟨b', hb'⟩ := (h.nodes n hn).1 b hb
      cases hx : b.2 with
      | none =>
        rw [hx] at hb'
        cases hb'
      | some x =>
        rw [hx] at hb'
        obtain ⟨code, hcode, _⟩ := onBindingCode_eq_ok.mp hb'
        exact ⟨x, code, rfl, hcode⟩

theorem processCode_fault : (c.processCode p).fault = none ↔ p.Accepts c := by
  rw [fault_eq_none_iff, CodeProcessor.processCode_toAttempt, Visitor.exists_visit,
    accepts_iff_ready]

theorem processCode_rewrites (h : (c.processCode p).fault = none) :
    p.rewriting.Of c (c.processCode p).component := by
  have hvisit := toAttempt_of_fault h
  rw [CodeProcessor.processCode_toAttempt] at hvisit
  exact Visitor.keeps_visit CodeProcessor.steps_follow c _ hvisit

theorem mapRefs_rewrites (h : (c.mapRefs domRefs lead).fault = none) :
    (refRewriting (c.refFields domRefs) lead).Of c (c.mapRefs domRefs lead).component := by
  have hvisit := toAttempt_of_fault h
  by_cases hfields : c.refFields domRefs = []
  · rw [mapRefs_noFields hfields] at hvisit
    rw [← Except.ok.inj hvisit, hfields]
    exact .same refRewriting_noFields c
  · rw [mapRefs_toAttempt domRefs hfields] at hvisit
    exact Visitor.keeps_visit refSteps_follow c _ hvisit

theorem mapRefs_rewrites_part :
    (refRewriting (c.refFields domRefs) lead).orSame.Of c (c.mapRefs domRefs lead).component := by
  rw [mapRefs]
  split
  next => exact .same (Rewriting.orSame_isReflexive _) c
  next => exact Visitor.keeps_visit refVisitor_follows c none

/-- The processing of code goes through exactly when each snippet is accepted, and the relocation of
    refs in texts exactly when each name is a template. Then each snippet is rewritten once in its
    place, by its category or with its refs as fields. In any case nothing but snippets changes, and
    what is changed is changed so. -/
theorem passes_rewrite_in_place (p : CodeProcessor) (domRefs : List Text) (lead : Text)
    (c : Component) :
    ((c.processCode p).fault = none ↔ p.Accepts c) ∧
    (p.Accepts c → p.rewriting.Of c (c.processCode p).component) ∧
    p.rewriting.orSame.Of c (c.processCode p).component ∧
    (c.HasTexts → ((c.mapRefs domRefs lead).fault = none ↔ c.RefsRelocate domRefs)) ∧
    ((c.mapRefs domRefs lead).fault = none →
      (refRewriting (c.refFields domRefs) lead).Of c (c.mapRefs domRefs lead).component) ∧
    (refRewriting (c.refFields domRefs) lead).orSame.Of c (c.mapRefs domRefs lead).component :=
  ⟨processCode_fault, fun h => processCode_rewrites (processCode_fault.mpr h),
    Visitor.keeps_visit CodeProcessor.visitor_follows c none,
    fun hc => (fault_eq_none_iff _).trans (exists_mapRefs lead hc domRefs), mapRefs_rewrites,
    mapRefs_rewrites_part⟩

/-- Puts the name of the category in front of each snippet. -/
def taggedCode : CodeProcessor := fun category =>
  Snippet.onGiven fun code => category.text ++ ":" ++ code

/-- A ref that only an else branch declares and reads. -/
def prompt : Component where
  name := .str "Prompt"
  children := [⟨.str "Show", [], [("when", some (.ofCode (.str "state.open") .normal))],
    [⟨.str "p", [("title", .str "Open")], [], [], .empty, none, []⟩], .empty,
    some ⟨.str "input", [("type", .str "text")], [("ref", some (.ofCode (.str "input") .normal)),
      ("value", some (.ofCode (.str "input.current.value") .normal))], [], .empty, none, []⟩,
    [(.text "else", .null)]⟩]
  state := [("open", ⟨.str "true", .data⟩)]
  props := []
  propsTypeRef := .null
  defaultProps := []
  refs := [("input", ⟨.null, .null⟩)]
  hooks := ⟨none, some (.str "input.current.focus()"), [⟨.str "input.current.blur()", [.str "state.open"]⟩],
    none⟩
  context := ⟨[], []⟩
  imports := []
  exports := []
  metadata := []
  types := []
  css := .null

theorem hasTexts_ofCode (code : Text) : (Binding.ofCode (.str code) .normal).HasTexts :=
  ⟨⟨_, rfl⟩, .inr ⟨_, rfl⟩, .inl rfl⟩

theorem prompt_hasTexts : prompt.HasTexts where
  hooks := by
    simp [prompt, Hooks.codes, Json.IsText]
  deps := by
    simp [prompt, Json.IsText]
  state := by
    simp [prompt, Json.IsText]
  refs := by
    simp [prompt, Json.IsOptionalText]
  nodes := by
    refine List.forall_mem_cons.mpr ⟨⟨⟨_, rfl⟩, by rintro _ ⟨⟩, ?_⟩, List.forall_mem_cons.mpr
      ⟨⟨⟨_, rfl⟩, ?_, ?_⟩, List.forall_mem_singleton.mpr ⟨⟨_, rfl⟩, ?_, by rintro _ ⟨⟩⟩⟩⟩
    · exact List.forall_mem_singleton.mpr ⟨_, rfl, hasTexts_ofCode _⟩
    · exact List.forall_mem_singleton.mpr ⟨_, rfl⟩
    · exact List.forall_mem_cons.mpr ⟨⟨_, rfl, hasTexts_ofCode _⟩,
        List.forall_mem_singleton.mpr ⟨_, rfl, hasTexts_ofCode _⟩⟩
    · exact List.forall_mem_singleton.mpr ⟨_, rfl⟩

theorem passes_rewrite_in_place_prompt :
    taggedCode.Accepts prompt ∧ prompt.HasTexts ∧ (prompt.mapRefs ["input"] "this.").fault = none ∧
      taggedCode.rewriting.Of prompt (prompt.processCode taggedCode).component ∧
      (refRewriting (prompt.refFields ["input"]) "this.").Of prompt
        (prompt.mapRefs ["input"] "this.").component := by
  obtain ⟨_, hprocessed, _, hrelocate, hrelocated, _⟩ :=
    passes_rewrite_in_place taggedCode ["input"] "this." prompt
  have haccepts : taggedCode.Accepts prompt :=
    accepts_iff_ready.mpr (CodeProcessor.steps_ready (fun _ => isTextMapper_onGiven _) prompt_hasTexts)
  have hfault := (hrelocate prompt_hasTexts).mpr fun _ => Snippet.areTemplates_of_plain (by decide)
  exact ⟨haccepts, prompt_hasTexts, hfault, hprocessed haccepts, hrelocated hfault⟩

/-- In the else branch the binding that declares the ref keeps its code, and the other reads the
    field. -/
example : (prompt.mapRefs ["input"] "this.").component.nodes.flatMap
    (fun n => n.bindings.map fun b => b.2.bind fun x => x.code.text?) =
      [some (ofString "state.open"), some (ofString "input"), some (ofString "input.value")] := by
  decide +kernel

end Component
end ElementCompiler
