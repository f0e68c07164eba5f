import ElementCompiler.Proofs.Markup.Callables
import ElementCompiler.Proofs.Module.LoweredTexts
import ElementCompiler.Proofs.Snippet.UnusedName

set_option autoImplicit false

/-!
Names that the code of a component does not use. Lowering a component brings no such name into its
code, so the code is written the same whether a member or a callable of that name is there.
-/

namespace ElementCompiler

open Attempt Snippet Text

/-- A name that no pass writes: it is not the instance, not the event, and no field that stores a
    value. -/
structure IsSpare (name : Text) : Prop where
  isName : IsName name
  notInstance : name ≠ "this"
  notField : headIs (· == .char '_') name = false
  notEvent : ∀ n, name ≠ repeated Markup.eventToken n

/-- The name is no word of the code. -/
def Json.IsWithout (name : Text) (code : Json) : Prop := ∀ s, code = .str s → name ∉ Snippet.words s

theorem Json.isWithout_str {name code : Text} (h : name ∉ Snippet.words code) :
    Json.IsWithout name (.str code) := by
  rintro _ ⟨⟩
  exact h

/-- The name is no word of a snippet that is rewritten. -/
structure Component.IsWithout (name : Text) (c : Component) : Prop where
  hooks : ∀ code ∈ c.hooks.codes, code.IsWithout name
  state : ∀ s ∈ c.state, s.2.code.IsWithout name
  refs : ∀ r ∈ c.refs, r.2.argument.IsWithout name
  bindings : ∀ n ∈ c.nodes, ∀ b ∈ n.bindings, ∀ x, b.2 = some x → x.code.IsWithout name

section Refs

variable {name : Text} (hname : IsSpare name) {fields : List (Text × Text)} {lead : Text}
include hname

theorem addsNo_relocateRef (hlead : lead = "" ∨ lead = Module.instanceLead) {ref field s t : Text}
    (href : CodePoint.char '\\' ∉ ref) (hfield : field = ref ∨ field = "_" ++ ref)
    (h : relocateRef lead ref field (.str s) = .ok t) (hword : name ∈ words t) : name ∈ words s := by
  rw [relocateRef_eq href] at h
  obtain rfl := Except.ok.inj h
  refine addsNo_substitute (fun _ _ => .current name ref) s ?_
  split at hword
  next => exact hword
  next hempty =>
    have hne : ref ≠ [] := by simpa using hempty
    have hstored : KeepsWord name ref field := by
      rcases hfield with rfl | rfl
      · exact .refl name _
      · exact .lowLine hname.notField hne
    have hfield : field ≠ [] := by
      rcases hfield with rfl | rfl
      · exact hne
      · exact List.append_ne_nil_of_right_ne_nil _ hne
    have hled : KeepsWord name field (lead ++ field) := by
      rcases hlead with rfl | rfl
      · exact .refl name field
      · exact .receptor isName_this hname.notInstance hfield
    exact addsNo_replaceOne (hstored.trans hled) _ hword

theorem isWithout_relocateRefs (hlead : lead = "" ∨ lead = Module.instanceLead)
    (hfields : AreFields fields) {code x : Json} (hcode : code.IsOptionalText)
    (h : relocateRefs fields lead code = .ok x) (hwithout : code.IsWithout name) :
    x.IsWithout name := by
  rw [relocateRefs] at h
  split at h
  next hgiven =>
    obtain ⟨s, rfl⟩ := hcode.isText hgiven
    have hs := hwithout s rfl
    clear hwithout hcode hgiven
    induction fields generalizing s with
    | nil =>
      obtain rfl := Except.ok.inj h
      rintro _ ⟨⟩
      exact hs
    | cons f fields ih =>
      obtain ⟨ref, field⟩ := f
      obtain ⟨hf, hrest⟩ := List.forall_mem_cons.mp hfields
      obtain ⟨t, ht, h⟩ := bind_eq_ok.mp h
      exact ih hrest t h fun hword => hs (addsNo_relocateRef hname hlead hf.1 hf.2 ht hword)
  next => exact Except.ok.inj h ▸ hwithout

theorem isWithout_mapRefs {c c' : Component} (hc : c.HasTexts) {domRefs : List Text}
    (hplain : ∀ f ∈ c.refFields domRefs, CodePoint.char '\\' ∉ f.1)
    (h : (c.mapRefs domRefs Module.instanceLead).toAttempt = .ok c') (hwithout : c.IsWithout name) :
    c'.IsWithout name := by
  have hvisited := visited_of_mapRefs hc h
  have hfields := areFields_refFields hplain
  refine ⟨fun code' hcode' => ?_, fun s' hs' => ?_, fun r' hr' => ?_, fun n' hn' b' hb' x' hx' => ?_⟩
  · obtain ⟨code, hcode, hstep⟩ := hvisited.hooks code' hcode'
    exact isWithout_relocateRefs hname (.inr rfl) hfields (.inr (hc.hooks code hcode)) hstep
      (hwithout.hooks code hcode)
  · obtain ⟨s, hs, _, hstep⟩ := exists_left hvisited.state s' hs'
    obtain ⟨code, hcode, hvalue⟩ := Visitor.visitState_eq_ok.mp hstep
    rw [hvalue]
    exact isWithout_relocateRefs hname (.inr rfl) hfields (.inr (hc.state s hs)) hcode
      (hwithout.state s hs)
  · obtain ⟨r, hr, _, hstep⟩ := exists_left hvisited.refs r' hr'
    obtain ⟨argument, hargument, hvalue⟩ := Visitor.visitRef_eq_ok.mp hstep
    rw [hvalue]
    exact isWithout_relocateRefs hname (.inr rfl) hfields (hc.refs r hr) hargument
      (hwithout.refs r hr)
  · obtain ⟨n, hn, hnode⟩ := exists_left hvisited.nodes n' hn'
    obtain ⟨b, hb, _, hstep⟩ := exists_left hnode.bindings b' hb'
    obtain ⟨x, hx, htexts⟩ := (hc.nodes n hn).bindings b hb
    have hbefore := hwithout.bindings n hn b hb x hx
    rw [hx, hx'] at hstep
    change (if b.1 == "ref" then pure (some x) else onBindingCode _ (some x)) = .ok (some x') at hstep
    split at hstep
    next =>
      obtain rfl := Option.some.inj (Except.ok.inj hstep)
      exact hbefore
    next =>
      obtain ⟨code, hcode, hvalue⟩ := onBindingCode_eq_ok.mp hstep
      obtain rfl := Option.some.inj hvalue
      exact isWithout_relocateRefs hname (.inl rfl) hfields (.inr htexts.code) hcode hbefore

end Refs

namespace Module

/-- Code without any names to look for is relocated as it is. -/
theorem relocateNames_text (names : List Text) (s : Text) :
    relocateNames names (.str s) = .ok (.str (relocate instanceLead names s)) := by
  rw [relocateNames]
  split
  next hempty =>
    have hnone : ∀ names : List Text, names.all List.isEmpty = true →
        relocate instanceLead names s = s := by
      intro names
      induction names with
      | nil => exact fun _ => rfl
      | cons n ns ih =>
        intro h
        rw [List.all_cons, Bool.and_eq_true] at h
        have hrest := ih h.2
        rw [relocate, replaceNames, List.foldl_cons, if_pos h.1]
        exact hrest
    rw [hnone names hempty]
  next => rfl

section Code

variable {name : Text} (hname : IsSpare name) {m m' : Members}
include hname

/-- The code of the class is the same for members that differ in the name only. -/
theorem classCode_unused (hmembers : m'.names.filter (· != name) = m.names.filter (· != name))
    {code : Json} (hcode : code.IsOptionalText) (hwithout : code.IsWithout name) :
    m'.classCode code = m.classCode code := by
  rcases hcode with rfl | ⟨s, rfl⟩
  · rfl
  · have hsame := relocateMembers_unused isName_this hname.isName hname.notInstance hmembers
      (.before instanceLead) (hwithout s rfl)
    change Except.ok (Json.str (if s.isEmpty then s else relocateMembers m'.names (receptor "this") _ s)) =
      Except.ok (Json.str (if s.isEmpty then s else relocateMembers m.names (receptor "this") _ s))
    rw [hsame]

theorem hookCode_unused (hmembers : m'.names.filter (· != name) = m.names.filter (· != name))
    {callables callables' : List Text}
    (hcallables : callables'.filter (· != name) = callables.filter (· != name)) {code : Json}
    (hcode : code.IsText) (hwithout : code.IsWithout name) :
    m'.hookCode callables' code = m.hookCode callables code := by
  rw [Members.hookCode, Members.hookCode,
    classCode_unused hname hmembers (.inr hcode) hwithout]
  obtain ⟨s, rfl⟩ := hcode
  have hrelocated : name ∉ words (if s.isEmpty then s else
      relocateMembers m.names (receptor "this") (.before (receptor "this")) s) := by
    split
    next => exact hwithout s rfl
    next =>
      exact fun hword => hwithout s rfl
        (addsNo_relocateMembers isName_this hname.notInstance m.names s hword)
  change relocateNames callables' (.str _) = relocateNames callables (.str _)
  rw [relocateNames_text, relocateNames_text]
  exact congrArg (fun t => Except.ok (Json.str t))
    (relocate_unused isName_this hname.isName hname.notInstance hcallables hrelocated)

/-- No handler of a lowered component comes down to the name. -/
theorem callsNo_bindingCode (houtputs : m.outputVars = []) {code x : Json} (hcode : code.IsText)
    (hwithout : code.IsWithout name) (h : m.bindingCode code = .ok x) :
    ∃ s, x = .str s ∧ Markup.CallsNo name s := by
  obtain ⟨s, rfl⟩ := hcode
  obtain rfl := Except.ok.inj h
  refine ⟨_, rfl, Markup.callsNo_of_notMem hname.isName hname.notEvent ?_⟩
  split
  next => exact hwithout s rfl
  next =>
    rw [houtputs]
    intro hword
    exact hwithout s rfl (addsNo_strip (fun member _ => .refl name member) s hword)

/-- What a lowered component writes into its class does not have the name among its words, and none of
    its handlers comes down to it. -/
structure LoweredWithout (name : Text) (c : Component) : Prop where
  state : ∀ s ∈ c.state, s.2.code.IsText ∧ s.2.code.IsWithout name
  refs : ∀ r ∈ c.refs, r.2.argument.IsOptionalText ∧ r.2.argument.IsWithout name
  nodes : ∀ n ∈ c.nodes, Markup.NodeCallsNo name n

theorem loweredWithout_visit (houtputs : m.outputVars = []) {callables : List Text}
    {c c' : Component} (hc : c.HasTexts) (hwithout : c.IsWithout name)
    (h : (m.processor callables).steps.visit c = .ok c') : LoweredWithout name c' := by
  have hvisited := Visitor.visited_of_visit h
  refine ⟨fun s' hs' => ?_, fun r' hr' => ?_, fun n' hn' b' hb' x' hx' => ?_⟩
  · obtain ⟨s, hs, _, hstep⟩ := exists_left hvisited.state s' hs'
    obtain ⟨code, hcode, hvalue⟩ := Visitor.visitState_eq_ok.mp hstep
    have hsame : Except.ok s.2.code = Except.ok code := hcode
    rw [hvalue, ← Except.ok.inj hsame]
    exact ⟨hc.state s hs, hwithout.state s hs⟩
  · obtain ⟨r, hr, _, hstep⟩ := exists_left hvisited.refs r' hr'
    obtain ⟨argument, hargument, hvalue⟩ := Visitor.visitRef_eq_ok.mp hstep
    have hsame : Except.ok r.2.argument = Except.ok argument := hargument
    rw [hvalue, ← Except.ok.inj hsame]
    exact ⟨hc.refs r hr, hwithout.refs r hr⟩
  · obtain ⟨n, hn, hnode⟩ := exists_left hvisited.nodes n' hn'
    obtain ⟨b, hb, _, hstep⟩ := exists_left hnode.bindings b' hb'
    obtain ⟨x, hx, htexts⟩ := (hc.nodes n hn).bindings b hb
    rw [hx, hx'] at hstep
    obtain ⟨code, hcode, hvalue⟩ := onBindingCode_eq_ok.mp hstep
    obtain rfl := Option.some.inj hvalue
    exact callsNo_bindingCode hname houtputs htexts.code (hwithout.bindings n hn b hb x hx) hcode

end Code

end Module
end ElementCompiler
