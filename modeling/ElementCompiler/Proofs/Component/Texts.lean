import ElementCompiler.Json.Access
import ElementCompiler.Proofs.Component.Visits
import ElementCompiler.Proofs.Entries
import ElementCompiler.Text.Blank

set_option autoImplicit false

/-!
Components whose snippets are texts. Visits whose steps make texts of texts keep them so.
-/

namespace ElementCompiler

open Attempt

namespace Json

def IsText (j : Json) : Prop := ∃ s, j = .str s

def IsOptionalText (j : Json) : Prop := j = .null ∨ j.IsText

theorem IsText.textOr {j : Json} (h : j.IsText) (fault : Fault) :
    ∃ s, j.textOr fault = .ok s := by
  obtain ⟨s, rfl⟩ := h
  exact ⟨s, rfl⟩

theorem mapM_textOr {js : List Json} (h : ∀ j ∈ js, j.IsText) (fault : Fault) :
    ∃ texts, js.mapM (Json.textOr fault) = .ok texts :=
  exists_mapM fun j hj => (h j hj).textOr fault

/-- What is given of an optional text is a text. -/
theorem IsOptionalText.isText {j : Json} (h : j.IsOptionalText) (hgiven : j.isGiven = true) :
    j.IsText := by
  rcases h with rfl | h
  · cases hgiven
  · exact h

end Json

theorem textOr_eq_ok {fault : Fault} {j : Json} {s : Text} (h : j.textOr fault = .ok s) :
    j = .str s := by
  cases j with
  | str t => rw [Except.ok.inj h]
  | _ => cases h

theorem mapM_textOr_eq_ok {fault : Fault} {js : List Json} {texts : List Text} :
    js.mapM (Json.textOr fault) = .ok texts ↔ js = texts.map .str := by
  rw [mapM_eq_ok]
  constructor
  · intro h
    induction h with
    | nil => rfl
    | cons hfirst _ ih => rw [List.map_cons, textOr_eq_ok hfirst, ih]
  · rintro rfl
    induction texts with
    | nil => exact .nil
    | cons text texts ih => exact .cons rfl ih

/-- The parts of a binding are texts; it may have no arguments. -/
structure Binding.HasTexts (b : Binding) : Prop where
  code : b.code.IsText
  rawCode : b.rawCode.IsOptionalText
  arguments : b.arguments = .null ∨ ∃ names : List Text, b.arguments = .arr (names.map .str)

structure Node.HasTexts (n : Node) : Prop where
  name : n.name.IsText
  properties : ∀ p ∈ n.properties, p.2.IsText
  bindings : ∀ b ∈ n.bindings, ∃ x, b.2 = some x ∧ x.HasTexts

theorem Node.HasTexts.binding? {n : Node} (h : n.HasTexts) {key : Text} {x : Binding}
    (hx : n.binding? key = some x) : x.HasTexts := by
  rw [Node.binding?, Option.join_eq_some_iff] at hx
  obtain ⟨k, hk⟩ := Entries.mem_of_get? hx
  obtain ⟨y, hy, htexts⟩ := h.bindings _ hk
  obtain rfl := Option.some.inj hy
  exact htexts

/-- The snippets that a visit meets are texts. -/
structure Component.HasTexts (c : Component) : Prop where
  hooks : ∀ code ∈ c.hooks.codes, code.IsText
  deps : ∀ u ∈ c.hooks.onUpdate, ∀ d ∈ u.deps, d.IsText
  state : ∀ s ∈ c.state, s.2.code.IsText
  refs : ∀ r ∈ c.refs, r.2.argument.IsOptionalText
  nodes : ∀ n ∈ c.nodes, n.HasTexts

def Node.Iterates (n : Node) : Prop :=
  ∃ x code, n.binding? "each" = some x ∧ x.code = .str code ∧ Text.isBlankText code = false

def Component.LoopsIterate (c : Component) : Prop := ∀ n ∈ c.nodes, n.isLoop = true → n.Iterates

namespace Visitor

variable {v : Visitor Attempt}

/-- Each step makes texts of texts. -/
structure KeepsTexts (v : Visitor Attempt) : Prop where
  hook : ∀ {code x}, v.hook code = .ok x → code.IsText → x.IsText
  deps : ∀ {ds ds'}, v.deps ds = .ok ds' → (∀ d ∈ ds, d.IsText) → ∀ d ∈ ds', d.IsText
  state : ∀ {code x}, v.state code = .ok x → code.IsText → x.IsText
  refArgument : ∀ {j x}, v.refArgument j = .ok x → j.IsOptionalText → x.IsOptionalText
  binding : ∀ {key b b'}, v.binding key (some b) = .ok b' → b.HasTexts → ∃ x, b' = some x ∧ x.HasTexts
  property : ∀ {j x}, v.property j = .ok x → j.IsText → x.IsText

theorem KeepsTexts.node (hkeeps : v.KeepsTexts) {n n' : Node} (h : NodeVisited v n n')
    (hn : n.HasTexts) : n'.HasTexts := by
  refine ⟨by rw [h.name]; exact hn.name, fun p' hp' => ?_, fun b' hb' => ?_⟩
  · obtain ⟨p, hp, _, hstep⟩ := exists_left h.properties p' hp'
    exact hkeeps.property hstep (hn.properties p hp)
  · obtain ⟨b, hb, _, hstep⟩ := exists_left h.bindings b' hb'
    obtain ⟨x, hx, htexts⟩ := hn.bindings b hb
    rw [hx] at hstep
    exact hkeeps.binding hstep htexts

/-- A visit by such steps gives a component with texts. -/
theorem KeepsTexts.component (hkeeps : v.KeepsTexts) {c c' : Component} (h : Visited v c c')
    (hc : c.HasTexts) : c'.HasTexts where
  hooks code' hcode' := by
    obtain ⟨code, hcode, hstep⟩ := h.hooks code' hcode'
    exact hkeeps.hook hstep (hc.hooks code hcode)
  deps u' hu' := by
    obtain ⟨u, hu, hstep⟩ := h.deps u' hu'
    exact hkeeps.deps hstep (hc.deps u hu)
  state s' hs' := by
    obtain ⟨s, hs, _, hstep⟩ := exists_left h.state s' hs'
    obtain ⟨code, hcode, hvalue⟩ := visitState_eq_ok.mp hstep
    rw [hvalue]
    exact hkeeps.state hcode (hc.state s hs)
  refs r' hr' := by
    obtain ⟨r, hr, _, hstep⟩ := exists_left h.refs r' hr'
    obtain ⟨argument, hargument, hvalue⟩ := visitRef_eq_ok.mp hstep
    rw [hvalue]
    exact hkeeps.refArgument hargument (hc.refs r hr)
  nodes n' hn' := by
    obtain ⟨n, hn, hvisited⟩ := exists_left h.nodes n' hn'
    exact hkeeps.node hvisited (hc.nodes n hn)

end Visitor
end ElementCompiler
