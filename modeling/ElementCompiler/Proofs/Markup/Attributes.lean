import ElementCompiler.Markup.Attributes
import ElementCompiler.Proofs.Component.Texts
import ElementCompiler.Proofs.Markup.TagFree

set_option autoImplicit false

/-!
What each rule makes of a binding: at most one attribute, or markup for the body, and a spread
source for a spread binding alone.
-/

namespace ElementCompiler.Markup

open Attempt Text

/-- The binding of an HTML tag, or one under a key with a hyphen, beside a `checked` binding. -/
def isChecked (n : Node) (key : Text) : Bool :=
  match isHtmlTag n.name with
  | .ok isTag => (isTag || occursIn "-" key) && Entries.has n.bindings "checked"
  | .error _ => false

/-- What a rule gives for a binding, among the sources that the node spreads. -/
inductive GivesEmitted (n : Node) (place : Place) (sources : List Text) (key : Text) (b : Binding) :
    BindingRule → Emitted → Prop
  | spread : GivesEmitted n place sources key b .spread (emitSpread key sources)
  | internal : GivesEmitted n place sources key b .internal .none
  | suppressed : suppressesEvents n = .ok true → GivesEmitted n place sources key b .event .none
  | event {argument value : Text} : suppressesEvents n = .ok false →
    eventArgument b.arguments = .ok argument →
    handlerValue argument b.code place.callableNames = .ok value →
    GivesEmitted n place sources key b .event
      (.single (eventName key n ++ ".delegate") (indentRest 2 value))
  | classes : GivesEmitted n place sources key b .classes
      (.single "class" ("$\x7b" ++ b.code.display ++ "\x7d"))
  | ref {code : Text} : b.code = .str code →
    GivesEmitted n place sources key b .ref (.single "ref" (trim code))
  | slot {code : Text} : b.code = .str code →
    GivesEmitted n place sources key b .slot ⟨[], [markSlot (lower (slotName key)) code], []⟩
  | mapped {target code : Text} : b.code = .str code →
    GivesEmitted n place sources key b (.mapped target)
      (.single (target ++ ".bind") (indentRest 2 code))
  | checked {code : Text} : isChecked n key = true → b.rawCode.orElse b.code = .str code →
    GivesEmitted n place sources key b .plain (.single (key ++ ".bind") (encodeQuotes code))
  | index {code : Text} : isChecked n key = false → b.code = .str code →
    trim code ∈ place.indexNames →
    GivesEmitted n place sources key b .plain (.single (key ++ ".bind") indexToken)
  | plain {code : Text} : isChecked n key = false → b.code = .str code →
    trim code ∉ place.indexNames →
    GivesEmitted n place sources key b .plain (.single (key ++ ".bind") (indentRest 2 code))

section Inversion

variable {n : Node} {place : Place} {sources : List Text} {key : Text} {b : Binding} {e : Emitted}

theorem emitAttribute_eq {isTag : Bool} (h : isHtmlTag n.name = .ok isTag) (key : Text) (b : Binding)
    (place : Place) : emitAttribute key b n place =
      if isChecked n key then do
        let value ← (b.rawCode.orElse b.code).textOr .missingOperation
        return .single (key ++ ".bind") (encodeQuotes value)
      else do
        let code ← b.code.textOr .missingOperation
        if place.indexNames.contains (trim code) then
          return .single (key ++ ".bind") indexToken
        else return .single (key ++ ".bind") (indentRest 2 code) := by
  unfold emitAttribute isChecked
  rw [h]
  cases isTag <;> rfl

theorem givesEmitted_attribute (h : emitAttribute key b n place = .ok e) :
    GivesEmitted n place sources key b .plain e := by
  cases htag : isHtmlTag n.name with
  | error fault =>
    unfold emitAttribute at h
    rw [htag] at h
    cases h
  | ok isTag =>
    rw [emitAttribute_eq htag] at h
    split at h
    next hchecked =>
      obtain ⟨value, hvalue, h⟩ := bind_eq_ok.mp h
      exact Except.ok.inj h ▸ .checked hchecked (textOr_eq_ok hvalue)
    next hchecked =>
      have hchecked : isChecked n key = false := by simpa using hchecked
      obtain ⟨code, hcode, h⟩ := bind_eq_ok.mp h
      have hcode := textOr_eq_ok hcode
      split at h
      next hindex => exact Except.ok.inj h ▸ .index hchecked hcode (List.contains_iff_mem.mp hindex)
      next hindex =>
        exact Except.ok.inj h ▸ .plain hchecked hcode fun hmem => hindex (List.contains_iff_mem.mpr hmem)

theorem givesEmitted_of_emitBinding (h : emitBinding n place sources key b = .ok e) :
    GivesEmitted n place sources key b (BindingRule.of key b.mode) e := by
  unfold emitBinding at h
  cases hrule : BindingRule.of key b.mode with rw [hrule] at h
  | spread => exact Except.ok.inj h ▸ .spread
  | internal => exact Except.ok.inj h ▸ .internal
  | event =>
    obtain ⟨suppressed, hsuppressed, h⟩ := bind_eq_ok.mp h
    cases suppressed with
    | true => exact Except.ok.inj h ▸ .suppressed hsuppressed
    | false =>
      obtain ⟨argument, hargument, h⟩ := bind_eq_ok.mp h
      obtain ⟨value, hvalue, h⟩ := bind_eq_ok.mp h
      exact Except.ok.inj h ▸ .event hsuppressed hargument hvalue
  | classes => exact Except.ok.inj h ▸ .classes
  | ref =>
    obtain ⟨code, hcode, h⟩ := bind_eq_ok.mp h
    exact Except.ok.inj h ▸ .ref (textOr_eq_ok hcode)
  | slot =>
    obtain ⟨code, hcode, h⟩ := bind_eq_ok.mp h
    exact Except.ok.inj h ▸ .slot (textOr_eq_ok hcode)
  | mapped target =>
    obtain ⟨code, hcode, h⟩ := bind_eq_ok.mp h
    exact Except.ok.inj h ▸ .mapped (textOr_eq_ok hcode)
  | plain => exact givesEmitted_attribute h

theorem givesEmitted_of_rule {rule : BindingRule} (hrule : BindingRule.of key b.mode = rule)
    (h : emitBinding n place sources key b = .ok e) : GivesEmitted n place sources key b rule e :=
  hrule ▸ givesEmitted_of_emitBinding h

end Inversion

/-- The attributes that a binding can be emitted as, by its rule. -/
inductive EmitsAttribute (n : Node) (place : Place) (key : Text) (b : Binding) : Attribute → Prop
  | spread (suffix : Text) : b.mode = .spread → (∀ c ∈ suffix, c.is Char.isDigit = true) →
    EmitsAttribute n place key b
      (.of ("spreadProps" ++ suffix ++ ".bind") (encodeQuotes (bare key)))
  | event {argument value : Text} : BindingRule.of key b.mode = .event →
    handlerValue argument b.code place.callableNames = .ok value →
    EmitsAttribute n place key b (.of (eventName key n ++ ".delegate") (indentRest 2 value))
  | classes : BindingRule.of key b.mode = .classes →
    EmitsAttribute n place key b (.of "class" ("$\x7b" ++ b.code.display ++ "\x7d"))
  | ref {code : Text} : BindingRule.of key b.mode = .ref → b.code = .str code →
    EmitsAttribute n place key b (.of "ref" (trim code))
  | mapped {target code : Text} : BindingRule.of key b.mode = .mapped target → b.code = .str code →
    EmitsAttribute n place key b (.of (target ++ ".bind") (indentRest 2 code))
  | checked {code : Text} : BindingRule.of key b.mode = .plain →
    b.rawCode.orElse b.code = .str code →
    EmitsAttribute n place key b (.of (key ++ ".bind") (encodeQuotes code))
  | index {code : Text} : BindingRule.of key b.mode = .plain → b.code = .str code →
    trim code ∈ place.indexNames → EmitsAttribute n place key b (.of (key ++ ".bind") indexToken)
  | plain {code : Text} : BindingRule.of key b.mode = .plain → b.code = .str code →
    EmitsAttribute n place key b (.of (key ++ ".bind") (indentRest 2 code))

/-- What a binding emits: at most one attribute, and nothing spread but what its key names. -/
structure EmitsBy (n : Node) (place : Place) (key : Text) (b : Binding) (e : Emitted) : Prop where
  attributes : ∀ a ∈ e.attributes, EmitsAttribute n place key b a
  single : e.attributes.length ≤ 1
  spreads : ∀ s ∈ e.spreads, b.mode = .spread ∧ s = bare key

section Rules

variable {n : Node} {place : Place} {key : Text} {b : Binding} {e : Emitted}

theorem emitsBy_none : EmitsBy n place key b .none :=
  ⟨by rintro _ ⟨⟩, Nat.zero_le 1, by rintro _ ⟨⟩⟩

theorem emitsBy_single {name value : Text} (h : EmitsAttribute n place key b (.of name value)) :
    EmitsBy n place key b (.single name value) :=
  ⟨List.forall_mem_singleton.mpr h, Nat.le_refl 1, by rintro _ ⟨⟩⟩

theorem rule_spread {mode : BindingMode} (h : BindingRule.of key mode = .spread) :
    mode = .spread := by
  unfold BindingRule.of at h
  repeat' split at h
  all_goals first | assumption | cases h

theorem rule_ref {mode : BindingMode} (h : BindingRule.of key mode = .ref) :
    key = "ref" ∧ mode ≠ .spread := by
  unfold BindingRule.of at h
  repeat' split at h
  all_goals try cases h
  next hmode _ _ _ hkey => exact ⟨eq_of_beq hkey, hmode⟩

/-- The key of a ref has no other rule, spread apart. -/
theorem key_ne_ref {mode : BindingMode} {rule : BindingRule} (h : BindingRule.of key mode = rule)
    (hrule : rule ≠ .spread ∧ rule ≠ .ref) : key ≠ "ref" := by
  rintro rfl
  have href : BindingRule.of "ref" mode = if mode = .spread then .spread else .ref := rfl
  rw [href] at h
  split at h
  next => exact hrule.1 h.symm
  next => exact hrule.2 h.symm

theorem rule_classes {mode : BindingMode} (h : BindingRule.of key mode = .classes) :
    key = "class" := by
  unfold BindingRule.of at h
  repeat' split at h
  all_goals try cases h
  next hkey => exact eq_of_beq hkey

theorem emitsBy_spread (h : BindingRule.of key b.mode = .spread) (sources : List Text) :
    EmitsBy n place key b (emitSpread key sources) := by
  have hmode := rule_spread h
  unfold emitSpread
  extract_lets target
  split
  next => exact emitsBy_none
  next k hk =>
    refine ⟨List.forall_mem_singleton.mpr (.spread _ hmode ?_), Nat.le_refl 1,
      List.forall_mem_singleton.mpr ⟨hmode, rfl⟩⟩
    split
    next => rintro _ ⟨⟩
    next => exact isDigit_of_mem_toString k

theorem emitsBy_emitBinding {sources : List Text} (h : emitBinding n place sources key b = .ok e) :
    EmitsBy n place key b e := by
  have hgives := givesEmitted_of_emitBinding h
  generalize hrule : BindingRule.of key b.mode = rule at hgives
  cases hgives with
  | spread => exact emitsBy_spread hrule sources
  | internal | suppressed => exact emitsBy_none
  | event _ _ hvalue => exact emitsBy_single (.event hrule hvalue)
  | classes => exact emitsBy_single (.classes hrule)
  | ref hcode => exact emitsBy_single (.ref hrule hcode)
  | slot => exact ⟨by rintro _ ⟨⟩, Nat.zero_le 1, by rintro _ ⟨⟩⟩
  | mapped hcode => exact emitsBy_single (.mapped hrule hcode)
  | checked _ hcode => exact emitsBy_single (.checked hrule hcode)
  | index _ hcode hindex => exact emitsBy_single (.index hrule hcode hindex)
  | plain _ hcode _ => exact emitsBy_single (.plain hrule hcode)

end Rules

section Bindings

variable {n : Node} {place : Place} {e : Emitted}

theorem concat_attributes (es : List Emitted) :
    (Emitted.concat es).attributes = es.flatMap Emitted.attributes := by
  induction es with
  | nil => rfl
  | cons e es ih => rw [Emitted.concat, Emitted.append, ih, List.flatMap_cons]

theorem concat_spreads (es : List Emitted) :
    (Emitted.concat es).spreads = es.flatMap Emitted.spreads := by
  induction es with
  | nil => rfl
  | cons e es ih => rw [Emitted.concat, Emitted.append, ih, List.flatMap_cons]

theorem concat_slots (es : List Emitted) :
    (Emitted.concat es).deferredSlots = es.flatMap Emitted.deferredSlots := by
  induction es with
  | nil => rfl
  | cons e es ih => rw [Emitted.concat, Emitted.append, ih, List.flatMap_cons]

theorem emitBindings_eq_ok {sources : List Text} {bs : Entries (Option Binding)}
    {es : List Emitted} (h : emitBindings n place sources bs = .ok es) :
    List.Forall₂ (fun b e => ∃ x, b.2 = some x ∧ emitBinding n place sources b.1 x = .ok e)
      bs es := by
  induction bs generalizing es with
  | nil =>
    obtain rfl := Except.ok.inj h
    exact .nil
  | cons b bs ih =>
    obtain ⟨key, _ | x⟩ := b
    · cases h
    · obtain ⟨first, hfirst, h⟩ := bind_eq_ok.mp h
      obtain ⟨others, hothers, h⟩ := bind_eq_ok.mp h
      obtain rfl := Except.ok.inj h
      exact .cons ⟨x, rfl, hfirst⟩ (ih hothers)

/-- The bindings of a node are emitted one by one, in their order. -/
theorem emitAll_eq_ok (h : emitAll n place = .ok e) : ∃ sources es, List.Forall₂
    (fun b e => ∃ x, b.2 = some x ∧ emitBinding n place sources b.1 x = .ok e) n.bindings es ∧
      e = .concat es := by
  obtain ⟨sources, _, h⟩ := bind_eq_ok.mp h
  obtain ⟨es, hes, h⟩ := bind_eq_ok.mp h
  exact ⟨sources, es, emitBindings_eq_ok hes, (Except.ok.inj h).symm⟩

theorem emitAll_emits (h : emitAll n place = .ok e) : ∃ es, List.Forall₂
    (fun b e => ∃ x, b.2 = some x ∧ EmitsBy n place b.1 x e) n.bindings es ∧
      e.attributes = es.flatMap Emitted.attributes ∧ e.spreads = es.flatMap Emitted.spreads := by
  obtain ⟨sources, es, hes, rfl⟩ := emitAll_eq_ok h
  refine ⟨es, hes.imp fun b e ⟨x, hx, he⟩ => ⟨x, hx, emitsBy_emitBinding he⟩,
    concat_attributes es, concat_spreads es⟩

end Bindings

end ElementCompiler.Markup
