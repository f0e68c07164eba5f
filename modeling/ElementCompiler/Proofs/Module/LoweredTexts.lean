import ElementCompiler.Proofs.Markup.Shown
import ElementCompiler.Proofs.Module.Lowering

set_option autoImplicit false

/-!
What the texts of nodes lack, they lack when the component is lowered: relocating refs writes the
names of refs only where they were read, and the code of a binding only loses the groups of its
members and has its quotes encoded.
-/

namespace ElementCompiler

open Attempt Text Markup

section Relocation

open Snippet

variable {bad : CodePoint → Bool} (hbad : IsAngular bad) {fields : List (Text × Text)}
include hbad

/-- Names that stand for themselves, and fields that are the names, perhaps behind a low line. -/
def AreFields (fields : List (Text × Text)) : Prop :=
  ∀ f ∈ fields, CodePoint.char '\\' ∉ f.1 ∧ (f.2 = f.1 ∨ f.2 = "_" ++ f.1)

theorem lacks_relocateRef {name field s t : Text} (hname : CodePoint.char '\\' ∉ name)
    (hfield : field = name ∨ field = "_" ++ name) (hs : Markup.Lacks bad s)
    (h : relocateRef "" name field (.str s) = .ok t) : Markup.Lacks bad t := by
  rw [relocateRef_eq hname] at h
  obtain rfl := Except.ok.inj h
  have hdropped : Markup.Lacks bad (substitute (name ++ ".current") (fun _ _ => name) s) :=
    lacks_substituteFrom (fun hpat _ _ => (lacks_append.mp hpat).1) hs 0 []
  split
  next => exact hdropped
  next =>
    refine lacks_replaceOne (fun hname => ?_) hdropped
    have hline : Markup.Lacks bad (ofString "_") := hbad.lacks (by decide)
    rcases hfield with rfl | rfl
    · exact hname
    · exact lacks_append.mpr ⟨lacks_nil, lacks_append.mpr ⟨hline, hname⟩⟩

theorem lacks_relocateEach (hfields : AreFields fields) {s : Text} {x : Json}
    (hs : Markup.Lacks bad s) (h : relocateEach "" fields (.str s) = .ok x) : x.Lacks bad := by
  induction fields generalizing s with
  | nil =>
    obtain rfl := Except.ok.inj h
    exact ⟨s, rfl, hs⟩
  | cons f fields ih =>
    obtain ⟨name, field⟩ := f
    obtain ⟨hf, hrest⟩ := List.forall_mem_cons.mp hfields
    obtain ⟨t, ht, h⟩ := bind_eq_ok.mp h
    exact ih hrest (lacks_relocateRef hbad hf.1 hf.2 hs ht) h

theorem lacks_relocateRefs (hfields : AreFields fields) {code x : Json} (hcode : code.Lacks bad)
    (h : relocateRefs fields "" code = .ok x) : x.Lacks bad := by
  rw [relocateRefs] at h
  split at h
  next =>
    obtain ⟨s, rfl, hs⟩ := hcode
    exact lacks_relocateEach hbad hfields hs h
  next => exact Except.ok.inj h ▸ hcode

theorem lacks_bindingCode {m : Module.Members} (houtputs : m.outputVars = []) {code x : Json}
    (hcode : code.Lacks bad) (h : m.bindingCode code = .ok x) : x.Lacks bad := by
  obtain ⟨s, rfl, hs⟩ := hcode
  have hstrip : Markup.Lacks bad (strip (.before "") s) :=
    lacks_strip (fun _ hname => hbad.lacks_name hname) hs
  obtain rfl := Except.ok.inj h
  refine ⟨_, rfl, lacks_encodeQuotes hbad ?_⟩
  split
  next => exact hs
  next =>
    rw [houtputs]
    exact hstrip

end Relocation

namespace Visitor

variable {bad : CodePoint → Bool} {v : Visitor Attempt}

/-- No step of the visit brings in characters that the texts of nodes lack. -/
structure KeepsLacks (bad : CodePoint → Bool) (v : Visitor Attempt) : Prop where
  binding : ∀ {key b b'}, v.binding key (some b) = .ok b' → b.Lacks bad →
    ∃ x, b' = some x ∧ x.Lacks bad
  property : ∀ {j x}, v.property j = .ok x → j.Lacks bad → x.Lacks bad

theorem KeepsLacks.node (hkeeps : KeepsLacks bad v) {n n' : Node} (h : NodeVisited v n n')
    (hn : n.Lacks bad) : n'.Lacks bad := by
  refine ⟨fun p' hp' => ?_, fun b' hb' => ?_, by rw [h.scope]; exact hn.forName⟩
  · obtain ⟨p, hp, hkey, hstep⟩ := exists_left h.properties p' hp'
    rw [hkey]
    exact (hn.properties p hp).imp_right fun hlacks => hkeeps.property hstep hlacks
  · obtain ⟨b, hb, hkey, hstep⟩ := exists_left h.bindings b' hb'
    obtain ⟨hname, x, hx, hlacks⟩ := hn.bindings b hb
    rw [hx] at hstep
    rw [hkey]
    exact ⟨hname, hkeeps.binding hstep hlacks⟩

theorem keepsLacks_onBindingCode {f : Json → Attempt Json}
    (hf : ∀ {code x}, code.Lacks bad → f code = .ok x → x.Lacks bad) {b : Binding}
    {b' : Option Binding} (h : onBindingCode f (some b) = .ok b') (hb : b.Lacks bad) :
    ∃ x, b' = some x ∧ x.Lacks bad := by
  obtain ⟨code, hcode, rfl⟩ := onBindingCode_eq_ok.mp h
  exact ⟨_, rfl, hf hb.code hcode, hb.rawCode⟩

theorem keepsLacks_refSteps (hbad : IsAngular bad) {fields : List (Text × Text)}
    (hfields : AreFields fields) (lead : Text) : KeepsLacks bad (refSteps fields lead) where
  binding {key b b'} h hb := by
    change (if key == "ref" then pure (some b) else onBindingCode _ (some b)) = .ok b' at h
    split at h
    next => exact ⟨b, (Except.ok.inj h).symm, hb⟩
    next => exact keepsLacks_onBindingCode (lacks_relocateRefs hbad hfields) h hb
  property h hj := Except.ok.inj h ▸ hj

theorem keepsLacks_processor (hbad : IsAngular bad) {m : Module.Members}
    (houtputs : m.outputVars = []) (callableNames : List Text) :
    KeepsLacks bad (m.processor callableNames).steps where
  binding h hb := keepsLacks_onBindingCode (lacks_bindingCode hbad houtputs) h hb
  property h hj := Except.ok.inj h ▸ hj

end Visitor

theorem areFields_refFields {c : Component} {domRefs : List Text}
    (hplain : ∀ f ∈ c.refFields domRefs, CodePoint.char '\\' ∉ f.1) :
    AreFields (c.refFields domRefs) := by
  intro f hf
  refine ⟨hplain f hf, ?_⟩
  obtain ⟨name, _, rfl⟩ := List.mem_map.mp hf
  dsimp only
  split
  next => exact .inl rfl
  next => exact .inr rfl

namespace Module

/-- Each node of a lowered component is what a node was made into: under the same name, with texts
    that lack what its texts lack. -/
theorem exists_lacks_lowered {bad : CodePoint → Bool} (hbad : IsAngular bad) {m : Members}
    {c c' : Component} (hc : c.HasTexts) (houtputs : m.outputVars = [])
    (hplain : ∀ f ∈ c.refFields m.domRefs, CodePoint.char '\\' ∉ f.1)
    (h : lowered .empty m c = .ok c') :
    ∀ n' ∈ c'.nodes, ∃ n ∈ c.nodes, n'.name = n.name ∧ (n.Lacks bad → n'.Lacks bad) := by
  obtain ⟨c₁, hrefs, hvisit⟩ := lowered_eq_ok.mp h
  intro n' hn'
  obtain ⟨n₁, hn₁, hsecond⟩ := exists_left (Visitor.visited_of_visit hvisit).nodes n' hn'
  obtain ⟨n, hn, hfirst⟩ := exists_left (visited_of_mapRefs hc hrefs).nodes n₁ hn₁
  refine ⟨n, hn, hsecond.name.trans hfirst.name, fun hlacks => ?_⟩
  exact (Visitor.keepsLacks_processor hbad houtputs _).node hsecond
    ((Visitor.keepsLacks_refSteps hbad (areFields_refFields hplain) _).node hfirst hlacks)

end Module
end ElementCompiler
