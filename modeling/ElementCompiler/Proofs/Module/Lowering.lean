import ElementCompiler.Module.Compile
import ElementCompiler.Proofs.Component.Refs
import ElementCompiler.Proofs.Snippet.PropReads

set_option autoImplicit false

/-!
Lowering a component whose snippets are texts. Only the relocation of refs can fail; the code
processor goes through every snippet, and it leaves the collection of a loop blank exactly when it
was.
-/

namespace ElementCompiler

open Attempt

def IsTextMapper (f : Json → Attempt Json) : Prop := ∀ s, ∃ t, f (.str s) = .ok (.str t)

theorem IsTextMapper.isText {f : Json → Attempt Json} (hf : IsTextMapper f) {j x : Json}
    (h : f j = .ok x) (hj : j.IsText) : x.IsText := by
  obtain ⟨s, rfl⟩ := hj
  obtain ⟨t, ht⟩ := hf s
  rw [ht] at h
  exact ⟨t, (Except.ok.inj h).symm⟩

theorem IsTextMapper.exists_ok {f : Json → Attempt Json} (hf : IsTextMapper f) {j : Json}
    (hj : j.IsText) : ∃ x, f j = .ok x := by
  obtain ⟨s, rfl⟩ := hj
  obtain ⟨t, ht⟩ := hf s
  exact ⟨_, ht⟩

theorem isTextMapper_onGiven (f : Text → Text) : IsTextMapper (Snippet.onGiven f) := fun _ => ⟨_, rfl⟩

def CodeProcessor.steps (p : CodeProcessor) : Visitor Attempt where
  hook := p .hooks
  deps := fun deps => deps.mapM (p .hooksDeps)
  state := p .state
  refArgument := pure
  binding := fun _ => onBindingCode (p .bindings)
  property := p .properties

namespace CodeProcessor

variable {p : CodeProcessor}

theorem visitor_runs : p.visitor.Runs p.steps where
  hook := Pass.runs_step _
  deps := Pass.runs_step _
  state := Pass.runs_step _
  refArgument := Pass.runs_pure
  binding _ := Pass.runs_step _
  property := Pass.runs_step _

theorem processCode_toAttempt (c : Component) : (c.processCode p).toAttempt = p.steps.visit c :=
  Visitor.edit_toAttempt visitor_runs c

theorem steps_keepsTexts (hp : ∀ category, IsTextMapper (p category)) : p.steps.KeepsTexts where
  hook h hj := (hp .hooks).isText h hj
  deps {ds ds'} h hds := by
    intro d' hd'
    obtain ⟨d, hd, hstep⟩ := exists_left (mapM_eq_ok.mp h) d' hd'
    exact (hp .hooksDeps).isText hstep (hds d hd)
  state h hj := (hp .state).isText h hj
  refArgument h hj := by
    obtain rfl := Except.ok.inj h
    exact hj
  binding h hb := by
    obtain ⟨code, hcode, rfl⟩ := onBindingCode_eq_ok.mp h
    exact ⟨_, rfl, (hp .bindings).isText hcode hb.code, hb.rawCode, hb.arguments⟩
  property h hj := (hp .properties).isText h hj

theorem steps_ready (hp : ∀ category, IsTextMapper (p category)) {c : Component} (hc : c.HasTexts) :
    p.steps.Ready c where
  hooks code hcode := (hp .hooks).exists_ok (hc.hooks code hcode)
  deps u hu := exists_mapM fun d hd => (hp .hooksDeps).exists_ok (hc.deps u hu d hd)
  state s hs := (hp .state).exists_ok (hc.state s hs)
  refs r _ := ⟨r.2.argument, rfl⟩
  nodes n hn := by
    refine ⟨fun b hb => ?_, fun j hj => (hp .properties).exists_ok ((hc.nodes n hn).properties j hj)⟩
    obtain ⟨x, hx, htexts⟩ := (hc.nodes n hn).bindings b hb
    obtain ⟨code, hcode⟩ := (hp .bindings).exists_ok htexts.code
    exact ⟨_, by rw [hx]; exact onBindingCode_eq_ok.mpr ⟨code, hcode, rfl⟩⟩

end CodeProcessor

namespace Module

theorem isTextMapper_processor (m : Members) (callableNames : List Text) :
    ∀ category, IsTextMapper (m.processor callableNames category)
  | .hooks => fun s => by
    change ∃ t, relocateNames callableNames _ = .ok (.str t)
    rw [relocateNames]
    split
    next => exact ⟨_, rfl⟩
    next => exact ⟨_, rfl⟩
  | .bindings => fun _ => ⟨_, rfl⟩
  | .hooksDeps => isTextMapper_onGiven _
  | .state => fun s => ⟨s, rfl⟩
  | .properties => fun s => ⟨s, rfl⟩

/-- Without outputs the code of a binding is only stripped and encoded. -/
theorem bindingCode_stripped {m : Members} (houtputs : m.outputVars = []) (s : Text) :
    m.bindingCode (.str s) = .ok (.str (Markup.encodeQuotes (Snippet.strip (.before "") s))) := by
  change Except.ok (Json.str (Markup.encodeQuotes
    (if s.isEmpty then s else Snippet.relocateMembers m.outputVars instanceLead (.before "") s))) = _
  split
  next hempty => rw [List.isEmpty_iff.mp hempty, Snippet.strip, Snippet.mapPlain_nil]
  next =>
    rw [houtputs]
    rfl

/-- A member behind its group is shown by its name. -/
theorem bindingCode_member {m : Members} (houtputs : m.outputVars = []) {group : Text}
    (hgroup : group ∈ Snippet.memberGroups) (member : Text) (hmember : Snippet.IsName member)
    (hstart : Snippet.headIs (·.is Text.isNameStart) member = true) :
    m.bindingCode (.str (group ++ .char '.' :: member)) = .ok (.str member) := by
  have hquote : CodePoint.char '"' ∉ member := fun hmem => absurd (hmember.2 _ hmem) (by decide)
  have hencoded : Markup.encodeQuotes member = member := Text.replaceFrom_eq_self hquote
  rw [bindingCode_stripped houtputs, Snippet.strip_member _ hgroup hmember hstart]
  exact congrArg (fun s => Except.ok (Json.str s)) hencoded

/-- Without outputs the code of a binding is blank exactly when it was. -/
theorem bindingCode_isBlank {m : Members} (houtputs : m.outputVars = []) (s : Text) :
    ∃ t, m.bindingCode (.str s) = .ok (.str t) ∧ Text.isBlankText t = Text.isBlankText s :=
  ⟨_, bindingCode_stripped houtputs s,
    (Text.isBlankText_encodeQuotes _).trans (Snippet.isBlankText_strip s)⟩

theorem lowered_eq_ok {m : Members} {c c' : Component} : lowered .empty m c = .ok c' ↔
    ∃ c₁, (c.mapRefs m.domRefs instanceLead).toAttempt = .ok c₁ ∧
      (m.processor c₁.callableNames).steps.visit c₁ = .ok c' := by
  rw [lowered, bind_eq_ok]
  refine exists_congr fun c₁ => and_congr_right fun _ => ?_
  rw [← CodeProcessor.processCode_toAttempt]
  exact Iff.rfl

theorem exists_lowered (m : Members) {c : Component} (hc : c.HasTexts) :
    (∃ c', lowered .empty m c = .ok c') ↔ c.RefsRelocate m.domRefs := by
  rw [← exists_mapRefs instanceLead hc]
  constructor
  · rintro ⟨c', h⟩
    obtain ⟨c₁, hrefs, _⟩ := lowered_eq_ok.mp h
    exact ⟨c₁, hrefs⟩
  · rintro ⟨c₁, hrefs⟩
    have htexts := refSteps_keepsTexts.component (visited_of_mapRefs hc hrefs) hc
    obtain ⟨c', h⟩ := (Visitor.exists_visit c₁).mpr
      (CodeProcessor.steps_ready (isTextMapper_processor m c₁.callableNames) htexts)
    exact ⟨c', lowered_eq_ok.mpr ⟨c₁, hrefs, h⟩⟩

end Module

namespace Visitor

variable {v : Visitor Attempt} {n n' : Node} {key : Text} {f : Json → Attempt Json}

/-- The binding at a key whose step is on the code: it is there as before, with the code changed. -/
theorem NodeVisited.binding? (h : NodeVisited v n n')
    (hstep : ∀ b, v.binding key b = onBindingCode f b) (p : Json → Prop) :
    (∃ x, n'.binding? key = some x ∧ p x.code) ↔
      ∃ x code, n.binding? key = some x ∧ f x.code = .ok code ∧ p code := by
  have hrel := get?_visited h.bindings key
  rw [Node.binding?, Node.binding?]
  generalize Entries.get? n.bindings key = b at hrel
  generalize Entries.get? n'.bindings key = b' at hrel
  cases hrel with
  | none =>
    constructor
    · rintro ⟨_, hx, _⟩
      cases hx
    · rintro ⟨_, _, hx, _⟩
      cases hx
  | @some b b' hb =>
    rw [hstep] at hb
    cases b with
    | none => cases hb
    | some x =>
      obtain ⟨code, hcode, rfl⟩ := onBindingCode_eq_ok.mp hb
      constructor
      · rintro ⟨_, hx, hp⟩
        obtain rfl := Option.some.inj hx
        exact ⟨x, code, rfl, hcode, hp⟩
      · rintro ⟨_, code', hx, hcode', hp⟩
        obtain rfl := Option.some.inj hx
        obtain rfl := Except.ok.inj (hcode.symm.trans hcode')
        exact ⟨_, rfl, hp⟩

end Visitor

def Json.IsInk (j : Json) : Prop := ∃ s, j = .str s ∧ Text.isBlankText s = false

theorem Node.iterates_iff (n : Node) :
    n.Iterates ↔ ∃ x, n.binding? "each" = some x ∧ x.code.IsInk :=
  ⟨fun ⟨x, code, hx, hcode, hink⟩ => ⟨x, hx, code, hcode, hink⟩,
    fun ⟨x, hx, code, hcode, hink⟩ => ⟨x, code, hx, hcode, hink⟩⟩

/-- Each loop has a collection once its refs are relocated. -/
def Component.LoopsStay (c : Component) (domRefs : List Text) : Prop :=
  ∀ n ∈ c.nodes, n.isLoop = true → ∃ x code, n.binding? "each" = some x ∧
    Snippet.relocateRefs (c.refFields domRefs) "" x.code = .ok code ∧ code.IsInk

namespace Module

section Lowered

variable {m : Members} {c c' : Component}

/-- What a visit makes of the loops, by what its step makes of their collections. -/
theorem loopsIterate_visited {v : Visitor Attempt} {f : Json → Attempt Json}
    (h : Visitor.Visited v c c') (hstep : ∀ b, v.binding "each" b = onBindingCode f b) :
    c'.LoopsIterate ↔ ∀ n ∈ c.nodes, n.isLoop = true →
      ∃ x code, n.binding? "each" = some x ∧ f x.code = .ok code ∧ code.IsInk := by
  have hloop : ∀ {n n'}, Visitor.NodeVisited v n n' → n'.isLoop = n.isLoop := fun hvisited => by
    rw [Node.isLoop, Node.isLoop, hvisited.name]
  constructor
  · intro hloops n hn hn'
    obtain ⟨n', hmem, hvisited⟩ := exists_right h.nodes n hn
    have hiterates := hloops n' hmem (by rw [hloop hvisited, hn'])
    exact (hvisited.binding? hstep _).mp (n'.iterates_iff.mp hiterates)
  · intro hcodes n' hmem hn'
    obtain ⟨n, hn, hvisited⟩ := exists_left h.nodes n' hmem
    have hcode := hcodes n hn (by rw [← hloop hvisited, hn'])
    exact n'.iterates_iff.mpr ((hvisited.binding? hstep _).mpr hcode)

theorem lowered_hasTexts (hc : c.HasTexts) (h : lowered .empty m c = .ok c') : c'.HasTexts := by
  obtain ⟨c₁, hrefs, hvisit⟩ := lowered_eq_ok.mp h
  have htexts := refSteps_keepsTexts.component (visited_of_mapRefs hc hrefs) hc
  exact (CodeProcessor.steps_keepsTexts (isTextMapper_processor m _)).component
    (Visitor.visited_of_visit hvisit) htexts

theorem lowered_rest (h : lowered .empty m c = .ok c') : c' = { c with
    hooks := c'.hooks, state := c'.state, refs := c'.refs, children := c'.children } := by
  obtain ⟨c₁, hrefs, hvisit⟩ := lowered_eq_ok.mp h
  have hfirst := mapRefs_rest hrefs
  have hsecond := (Visitor.visited_of_visit hvisit).rest
  rw [hfirst] at hsecond
  exact hsecond

theorem lowered_refs (hc : c.HasTexts) (h : lowered .empty m c = .ok c') :
    Entries.keys c'.refs = Entries.keys c.refs := by
  obtain ⟨c₁, hrefs, hvisit⟩ := lowered_eq_ok.mp h
  rw [Visitor.keys_visited (Visitor.visited_of_visit hvisit).refs,
    Visitor.keys_visited (visited_of_mapRefs hc hrefs).refs]

theorem lowered_stateKeys (hc : c.HasTexts) (h : lowered .empty m c = .ok c') :
    Entries.keys c'.state = Entries.keys c.state := by
  obtain ⟨c₁, hrefs, hvisit⟩ := lowered_eq_ok.mp h
  rw [Visitor.keys_visited (Visitor.visited_of_visit hvisit).state,
    Visitor.keys_visited (visited_of_mapRefs hc hrefs).state]

/-- The loops of the lowered component go through something exactly when they do after the
    relocation of refs. -/
theorem loopsIterate_lowered (hc : c.HasTexts) (houtputs : m.outputVars = [])
    (h : lowered .empty m c = .ok c') : c'.LoopsIterate ↔ c.LoopsStay m.domRefs := by
  obtain ⟨c₁, hrefs, hvisit⟩ := lowered_eq_ok.mp h
  have hvisited := visited_of_mapRefs hc hrefs
  have htexts := refSteps_keepsTexts.component hvisited hc
  have hrelocated := loopsIterate_visited hvisited (f := Snippet.relocateRefs _ "") fun _ => rfl
  have hprocessed := loopsIterate_visited (Visitor.visited_of_visit hvisit) (f := m.bindingCode)
    fun _ => rfl
  rw [Component.LoopsStay, ← hrelocated, hprocessed]
  refine forall₂_congr fun n hn => forall_congr' fun _ => ?_
  rw [n.iterates_iff]
  constructor
  · rintro ⟨x, code, hx, hcode, s, rfl, hs⟩
    obtain ⟨r, hr⟩ := ((htexts.nodes n hn).binding? hx).code
    obtain ⟨t, ht, hblank⟩ := bindingCode_isBlank houtputs r
    rw [hr, ht] at hcode
    obtain rfl := Json.str.inj (Except.ok.inj hcode)
    exact ⟨x, hx, r, hr, by rw [← hblank, hs]⟩
  · rintro ⟨x, hx, s, hs, hink⟩
    obtain ⟨t, ht, hblank⟩ := bindingCode_isBlank houtputs s
    exact ⟨x, .str t, hx, by rw [hs, ht], t, rfl, by rw [hblank, hink]⟩

end Lowered

end Module
end ElementCompiler
