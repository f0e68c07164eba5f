import ElementCompiler.Proofs.Markup.Attributes
import ElementCompiler.Proofs.Markup.TagReading

set_option autoImplicit false

/-!
What the bindings and properties of a node emit when its texts lack angle brackets, or the opening
one: attributes in quotes and slotted text that lack them as well.
-/

namespace ElementCompiler

open Attempt Text Markup

/-- A text in which no tag begins or ends. -/
def Json.IsTagFree (j : Json) : Prop := ∃ s, j = .str s ∧ TagFree s

/-- A text without some characters. -/
def Json.Lacks (bad : CodePoint → Bool) (j : Json) : Prop := ∃ s, j = .str s ∧ Markup.Lacks bad s

section Values

variable {bad : CodePoint → Bool} {j : Json} {fault : Fault} {s : Text}

theorem Json.Lacks.of_eq (hj : j.Lacks bad) (h : j = .str s) : Markup.Lacks bad s := by
  obtain ⟨t, ht, hlacks⟩ := hj
  exact Json.str.inj (ht.symm.trans h) ▸ hlacks

theorem Json.Lacks.textOr (hj : j.Lacks bad) (h : j.textOr fault = .ok s) : Markup.Lacks bad s :=
  hj.of_eq (textOr_eq_ok h)

theorem Json.Lacks.display (hj : j.Lacks bad) : Markup.Lacks bad j.display := by
  obtain ⟨t, rfl, ht⟩ := hj
  rwa [Json.display_str]

theorem Json.lacks_of_mapM_textOr {js : List Json} {texts : List Text}
    (hjs : ∀ j ∈ js, j.Lacks bad) (h : js.mapM (Json.textOr fault) = .ok texts) :
    ∀ s ∈ texts, Markup.Lacks bad s := by
  induction mapM_eq_ok.mp h with
  | nil => simp
  | cons hj hrest ih =>
    rw [List.forall_mem_cons] at hjs ⊢
    exact ⟨hjs.1.textOr hj, ih hjs.2 (mapM_eq_ok.mpr hrest)⟩

theorem Json.IsTagFree.display (hj : j.IsTagFree) : TagFree j.display := Json.Lacks.display hj

theorem Json.tagFree_of_mapM_textOr {js : List Json} {texts : List Text}
    (hjs : ∀ j ∈ js, j.IsTagFree) (h : js.mapM (Json.textOr fault) = .ok texts) :
    ∀ s ∈ texts, TagFree s := Json.lacks_of_mapM_textOr hjs h

end Values

structure Binding.IsTagFree (b : Binding) : Prop where
  code : b.code.IsTagFree
  rawCode : b.rawCode = .null ∨ b.rawCode.IsTagFree
  arguments : b.arguments = .null ∨ ∃ names : List Text, b.arguments = .arr (names.map .str)

theorem Binding.IsTagFree.hasTexts {b : Binding} (h : b.IsTagFree) : b.HasTexts where
  code := h.code.imp fun _ hs => hs.1
  rawCode := h.rawCode.imp_right fun h => h.imp fun _ hs => hs.1
  arguments := h.arguments

/-- The codes of the binding are texts without some characters. -/
structure Binding.Lacks (bad : CodePoint → Bool) (b : Binding) : Prop where
  code : b.code.Lacks bad
  rawCode : b.rawCode = .null ∨ b.rawCode.Lacks bad

theorem Binding.Lacks.checkedCode {bad : CodePoint → Bool} {b : Binding} (h : b.Lacks bad) :
    (b.rawCode.orElse b.code).Lacks bad := by
  unfold Json.orElse
  split
  next hgiven =>
    refine h.rawCode.resolve_left fun hnull => ?_
    rw [hnull] at hgiven
    cases hgiven
  next => exact h.code

theorem Binding.IsTagFree.lacks {b : Binding} (h : b.IsTagFree) : b.Lacks isAngle :=
  ⟨h.code, h.rawCode⟩

namespace Markup

structure Attribute.Lacks (bad : CodePoint → Bool) (a : Attribute) : Prop where
  name : Markup.Lacks bad a.name
  value : ∃ v, a.value = some v ∧ Markup.Lacks bad v

theorem Attribute.Lacks.isQuoted {a : Attribute} (h : a.Lacks isAngle) : a.IsQuoted :=
  ⟨h.name, h.value⟩

structure Emitted.Lacks (bad : CodePoint → Bool) (e : Emitted) : Prop where
  attributes : ∀ a ∈ e.attributes, Attribute.Lacks bad a
  slots : ∀ s ∈ e.deferredSlots, Markup.Lacks bad s

structure Emitted.IsTagFree (e : Emitted) : Prop where
  attributes : ∀ a ∈ e.attributes, a.IsQuoted
  slots : ∀ s ∈ e.deferredSlots, TagFree s

section Emitted

variable {bad : CodePoint → Bool}

theorem Emitted.lacks_none : Emitted.none.Lacks bad := by
  constructor <;> simp [Emitted.none]

theorem Emitted.lacks_single {name value : Text} (hname : Markup.Lacks bad name)
    (hvalue : Markup.Lacks bad value) : (Emitted.single name value).Lacks bad :=
  ⟨List.forall_mem_singleton.mpr ⟨hname, value, rfl, hvalue⟩, by simp [Emitted.single]⟩

theorem Emitted.lacks_concat {es : List Emitted} (h : ∀ e ∈ es, e.Lacks bad) :
    (Emitted.concat es).Lacks bad := by
  induction es with
  | nil => exact Emitted.lacks_none
  | cons e es ih =>
    rw [List.forall_mem_cons] at h
    have hrest := ih h.2
    constructor
    · intro a ha
      exact (List.mem_append.mp ha).elim (h.1.attributes a) (hrest.attributes a)
    · intro s hs
      exact (List.mem_append.mp hs).elim (h.1.slots s) (hrest.slots s)

end Emitted

section Handlers

variable {bad : CodePoint → Bool} {n : Node} {key : Text}

theorem lacks_eventName (hbad : AreSigns bad) (hkey : Lacks bad key) : Lacks bad (eventName key n) := by
  have hdrop : Lacks bad (key.drop 2) := hkey.of_subset (List.drop_subset 2 key)
  unfold eventName
  extract_lets name
  have hname : Lacks bad name := by
    unfold name
    split
    next => simp
    next c cs hcs =>
      rw [hcs, lacks_cons] at hdrop
      simpa [hdrop.2] using lacks_lower hbad (s := [c]) (by simpa using hdrop.1)
  have hletters : ∀ c ∈ ofString "input", IsBeyondSigns c := by
    unfold IsBeyondSigns
    decide
  split
  · exact fun c hc => hbad c (hletters c hc)
  · exact hname

theorem lacks_handlerValue {argument value : Text} {code : Json} {callableNames : List Text}
    (htoken : Lacks bad eventToken) (hcall : Lacks bad "()") (hcode : code.Lacks bad)
    (h : handlerValue argument code callableNames = .ok value) : Lacks bad value := by
  obtain ⟨s, rfl, hs⟩ := hcode
  have hrenamed : Lacks bad (Snippet.renameArgument argument eventToken s) := lacks_renameArgument htoken hs
  have hblock := lacks_unwrapBlock hrenamed
  obtain ⟨renamed, hok, h⟩ := bind_eq_ok.mp h
  obtain rfl := Except.ok.inj hok
  extract_lets unwrapped bareValue at h
  obtain rfl := Except.ok.inj h
  split
  · exact lacks_append.mpr ⟨lacks_trim hblock, hcall⟩
  · exact hblock

end Handlers

section Bindings

variable {bad : CodePoint → Bool} (hbad : IsAngular bad) {n : Node} {place : Place} {key : Text}
  {b : Binding} {e : Emitted}
include hbad

omit hbad in
theorem lacks_bare {code : Text} (h : Lacks bad code) : Lacks bad (bare code) := by
  unfold bare
  have htrim := lacks_trim h
  cases hprops : after? "props." (trim code) with
  | some rest => simpa [hprops] using lacks_after? htrim hprops
  | none =>
    cases hstate : after? "state." (trim code) with
    | some rest => simpa [hprops, hstate] using lacks_after? htrim hstate
    | none => simpa [hprops, hstate] using htrim

theorem lacks_emitSpread (hkey : Lacks bad key) (sources : List Text) :
    (emitSpread key sources).Lacks bad := by
  unfold emitSpread
  extract_lets target
  split
  next => exact Emitted.lacks_none
  next place _ =>
    extract_lets suffix
    have hsuffix : TagFree suffix := by
      unfold suffix
      split
      · simp
      · exact tagFree_toString place
    have hlead : TagFree (ofString "spreadProps") := by decide
    have hname := hbad.lacks (tagFree_append.mpr
      ⟨tagFree_append.mpr ⟨hlead, hsuffix⟩, tagFree_bindMark⟩)
    have hvalue := lacks_encodeQuotes hbad (lacks_bare hkey)
    exact ⟨List.forall_mem_singleton.mpr ⟨hname, _, rfl, hvalue⟩, by simp⟩

theorem lacks_markSlot {mark code : Text} (hmark : Lacks bad mark) (hcode : Lacks bad code) :
    Lacks bad (markSlot mark code) := by
  have hblank : bad (.char ' ') = false := hbad.of_not_isAngle rfl
  fun_induction markSlot mark code <;> simp_all [ofString]

omit hbad in
theorem lacks_slotName (hkey : Lacks bad key) : Lacks bad (slotName key) := by
  unfold slotName slotName?
  split
  next c cs hafter =>
    split
    · exact lacks_after? hkey hafter
    · exact hkey
  next => exact hkey

omit hbad in
theorem get?_mappedKeys_of_mapped {mode : BindingMode} {target : Text}
    (h : BindingRule.of key mode = .mapped target) : Entries.get? mappedKeys key = some target := by
  unfold BindingRule.of at h
  repeat' split at h
  all_goals try cases h
  assumption

omit hbad in
theorem mappedKeys_tagFree : ∀ entry ∈ mappedKeys, TagFree entry.2 := by decide

theorem lacks_emitBinding {sources : List Text} (hkey : Lacks bad key) (hb : b.Lacks bad)
    (h : emitBinding n place sources key b = .ok e) : e.Lacks bad := by
  have hgives := givesEmitted_of_emitBinding h
  generalize hrule : BindingRule.of key b.mode = rule at hgives
  have hname : Lacks bad (key ++ ".bind") := lacks_append.mpr ⟨hkey, hbad.lacks tagFree_bindMark⟩
  cases hgives with
  | spread => exact lacks_emitSpread hbad hkey sources
  | internal | suppressed => exact Emitted.lacks_none
  | event _ _ hvalue =>
    have hdelegate : Lacks bad (ofString ".delegate") := hbad.lacks (by decide)
    exact Emitted.lacks_single (lacks_append.mpr ⟨lacks_eventName hbad.areSigns hkey, hdelegate⟩)
      (lacks_indentRest hbad (lacks_handlerValue (hbad.lacks (by decide))
        (hbad.lacks (by decide)) hb.code hvalue))
  | classes =>
    have hvalue : Lacks bad ("$\x7b" ++ b.code.display ++ "\x7d") := lacks_append.mpr
      ⟨lacks_append.mpr ⟨hbad.lacks tagFree_openMark, hb.code.display⟩,
        hbad.lacks tagFree_closeMark⟩
    exact Emitted.lacks_single (hbad.lacks (by decide)) hvalue
  | ref hcode => exact Emitted.lacks_single (hbad.lacks (by decide)) (lacks_trim (hb.code.of_eq hcode))
  | slot hcode =>
    exact ⟨by simp, List.forall_mem_singleton.mpr (lacks_markSlot hbad
      (lacks_lower hbad.areSigns (lacks_slotName hkey)) (hb.code.of_eq hcode))⟩
  | mapped hcode =>
    obtain ⟨k, hk⟩ := Entries.mem_of_get? (get?_mappedKeys_of_mapped hrule)
    have htarget := tagFree_append.mpr ⟨mappedKeys_tagFree _ hk, tagFree_bindMark⟩
    exact Emitted.lacks_single (hbad.lacks htarget) (lacks_indentRest hbad (hb.code.of_eq hcode))
  | checked _ hcode =>
    exact Emitted.lacks_single hname (lacks_encodeQuotes hbad (hb.checkedCode.of_eq hcode))
  | index => exact Emitted.lacks_single hname (hbad.lacks (by decide))
  | plain _ hcode => exact Emitted.lacks_single hname (lacks_indentRest hbad (hb.code.of_eq hcode))

theorem lacks_emitBindings {sources : List Text} {bs : Entries (Option Binding)}
    {emitted : List Emitted} (hbs : ∀ b ∈ bs, Lacks bad b.1 ∧ ∃ x, b.2 = some x ∧ x.Lacks bad)
    (h : emitBindings n place sources bs = .ok emitted) : ∀ e ∈ emitted, e.Lacks bad := by
  induction bs generalizing emitted with
  | nil =>
    obtain rfl := Except.ok.inj h
    simp
  | cons b bs ih =>
    obtain ⟨key, b⟩ := b
    obtain ⟨⟨hkey, x, rfl, hx⟩, hrest⟩ := List.forall_mem_cons.mp hbs
    obtain ⟨first, hfirst, h⟩ := bind_eq_ok.mp h
    obtain ⟨others, hothers, h⟩ := bind_eq_ok.mp h
    obtain rfl := Except.ok.inj h
    exact List.forall_mem_cons.mpr ⟨lacks_emitBinding hbad hkey hx hfirst, ih hrest hothers⟩

theorem lacks_emitAll (hbs : ∀ b ∈ n.bindings, Lacks bad b.1 ∧ ∃ x, b.2 = some x ∧ x.Lacks bad)
    (h : emitAll n place = .ok e) : e.Lacks bad := by
  obtain ⟨sources, _, h⟩ := bind_eq_ok.mp h
  obtain ⟨emitted, hemitted, h⟩ := bind_eq_ok.mp h
  obtain rfl := Except.ok.inj h
  exact Emitted.lacks_concat (lacks_emitBindings hbad hbs hemitted)

omit hbad in
theorem isTagFree_emitAll (hbs : ∀ b ∈ n.bindings, TagFree b.1 ∧ ∃ x, b.2 = some x ∧ x.IsTagFree)
    (h : emitAll n place = .ok e) : e.IsTagFree := by
  have hlacks := lacks_emitAll isAngular_isAngle (fun b hb => by
    obtain ⟨hkey, x, hx, hfree⟩ := hbs b hb
    exact ⟨hkey, x, hx, hfree.lacks⟩) h
  exact ⟨fun a ha => (hlacks.attributes a ha).isQuoted, hlacks.slots⟩

omit hbad in
theorem lacks_propertyAttributes (hps : ∀ p ∈ n.properties, Lacks bad p.1 ∧ p.2.Lacks bad) :
    ∀ a ∈ propertyAttributes n, Attribute.Lacks bad a := by
  intro a ha
  obtain ⟨p, hp, rfl⟩ := List.mem_map.mp ha
  have hlacks := hps p (List.mem_filter.mp hp).1
  exact ⟨hlacks.1, _, rfl, hlacks.2.display⟩

omit hbad in
theorem isQuoted_propertyAttributes (hps : ∀ p ∈ n.properties, TagFree p.1 ∧ p.2.IsTagFree) :
    ∀ a ∈ propertyAttributes n, a.IsQuoted := fun a ha =>
  (lacks_propertyAttributes hps a ha).isQuoted

end Bindings

end Markup
end ElementCompiler
