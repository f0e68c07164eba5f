import ElementCompiler.Markup.Block
import ElementCompiler.Proofs.Markup.Emission

set_option autoImplicit false

/-!
The texts of a node that its rule shows beside its attributes: literal text, interpolations, the
heads of loops and conditionals, the codes in a slot. They lack what the texts of the node lack.
-/

namespace ElementCompiler

open Attempt Text Markup

/-- The texts of the node that can be shown, its name apart, lack some characters. -/
structure Node.Lacks (bad : CodePoint → Bool) (n : Node) : Prop where
  properties : ∀ p ∈ n.properties, Markup.Lacks bad p.1 ∧ p.2.Lacks bad
  bindings : ∀ b ∈ n.bindings, Markup.Lacks bad b.1 ∧ ∃ x, b.2 = some x ∧ x.Lacks bad
  forName : n.scope.forName = .null ∨ n.scope.forName.Lacks bad

theorem Node.Lacks.binding? {bad : CodePoint → Bool} {n : Node} (h : n.Lacks bad) {key : Text}
    {x : Binding} (hx : n.binding? key = some x) : x.Lacks bad := by
  rw [Node.binding?, Option.join_eq_some_iff] at hx
  obtain ⟨k, hk⟩ := Entries.mem_of_get? hx
  obtain ⟨-, y, hy, hlacks⟩ := h.bindings _ hk
  obtain rfl := Option.some.inj hy
  exact hlacks

namespace Markup

def BlockRule.Lacks (bad : CodePoint → Bool) : BlockRule → Prop
  | .literalText value => value.Lacks bad
  | .interpolation code => Markup.Lacks bad code
  | _ => True

section Rules

variable {bad : CodePoint → Bool} {n : Node}

theorem lacks_blockRule {rule : BlockRule} (hn : n.Lacks bad) (h : blockRule n = .ok rule) :
    rule.Lacks bad := by
  unfold blockRule at h
  split at h
  next => exact Except.ok.inj h ▸ trivial
  split at h
  next => exact Except.ok.inj h ▸ trivial
  obtain ⟨placeholder, _, h⟩ := bind_eq_ok.mp h
  split at h
  next => exact Except.ok.inj h ▸ trivial
  split at h
  next value hvalue =>
    obtain ⟨k, hk⟩ := Entries.mem_of_get? hvalue
    exact Except.ok.inj h ▸ (hn.properties _ hk).2
  split at h
  next code hcode =>
    obtain ⟨b, hb, hcode⟩ := Option.bind_eq_some_iff.mp hcode
    obtain ⟨s, hs, hlacks⟩ := (hn.binding? hb).code
    have hsame : code = s := by
      rw [hs, Json.nonEmptyText?] at hcode
      split at hcode
      next => cases hcode
      next => exact (Option.some.inj hcode).symm
    exact Except.ok.inj h ▸ hsame ▸ hlacks
  split at h
  next => exact Except.ok.inj h ▸ trivial
  split at h <;> exact Except.ok.inj h ▸ trivial

theorem lacks_nestedCodes {bs : Entries (Option Binding)} {codes : List Json}
    (hbs : ∀ b ∈ bs, Lacks bad b.1 ∧ ∃ x, b.2 = some x ∧ x.Lacks bad)
    (h : nestedCodes bs = .ok codes) : ∀ code ∈ codes, code.Lacks bad := by
  induction bs generalizing codes with
  | nil =>
    obtain rfl := Except.ok.inj h
    simp
  | cons b bs ih =>
    obtain ⟨key, b⟩ := b
    obtain ⟨⟨-, x, rfl, hx⟩, hrest⟩ := List.forall_mem_cons.mp hbs
    unfold nestedCodes at h
    split at h
    next => exact ih hrest h
    next =>
      obtain ⟨others, hothers, h⟩ := bind_eq_ok.mp h
      obtain rfl := Except.ok.inj h
      have hlacks := ih hrest hothers
      split
      next => exact List.forall_mem_cons.mpr ⟨hx.code, hlacks⟩
      next => exact hlacks

theorem slotAttributes_eq_ok {attributes : List Attribute} (h : slotAttributes n = .ok attributes) :
    attributes = [] ∨ ∃ name, attributes = [.of "name" (slotSelector name)] := by
  unfold slotAttributes at h
  extract_lets name at h
  split at h
  next =>
    obtain ⟨text, _, h⟩ := bind_eq_ok.mp h
    exact .inr ⟨text, (Except.ok.inj h).symm⟩
  next => exact .inl (Except.ok.inj h).symm

theorem loopCollection_eq_ok {collection : Text} (h : loopCollection n = .ok collection) :
    ∃ b, n.binding? "each" = some b ∧ b.code = .str collection := by
  unfold loopCollection at h
  split at h
  next => cases h
  next b hb =>
    obtain ⟨code, hcode, h⟩ := bind_eq_ok.mp h
    split at h
    next => cases h
    next =>
      obtain rfl := Except.ok.inj h
      cases hj : b.code with
      | str s =>
        rw [hj] at hcode
        exact ⟨b, hb, hj.trans (congrArg Json.str (Except.ok.inj hcode))⟩
      | _ =>
        rw [hj] at hcode
        cases hcode

variable (hbad : IsAngular bad)
include hbad

theorem lacks_slotAttributes {attributes : List Attribute}
    (h : slotAttributes n = .ok attributes) : ∀ a ∈ attributes, a.Lacks bad := by
  rcases slotAttributes_eq_ok h with rfl | ⟨text, rfl⟩
  · simp
  · have hhead : TagFree (ofString "name") := by decide
    have hselector : TagFree (slotSelector text) := (isTagName_kebabFrom _ _).tagFree
    exact List.forall_mem_singleton.mpr
      ⟨hbad.lacks hhead, _, rfl, hbad.lacks hselector⟩

theorem lacks_conditionText (hn : n.Lacks bad) : Lacks bad (conditionText n) := by
  unfold conditionText
  split
  next b hb => exact (hn.binding? hb).code.display
  next => exact hbad.lacks (by decide)

theorem lacks_loopHead {collection : Text} (hn : n.Lacks bad)
    (h : loopCollection n = .ok collection) :
    (Attribute.of "repeat.for" (n.scope.forName.display ++ " of " ++ collection)).Lacks bad := by
  have hname : Lacks bad n.scope.forName.display := by
    rcases hn.forName with hnull | hlacks
    · rw [hnull]
      exact hbad.lacks (by decide)
    · exact hlacks.display
  have hof : Lacks bad (ofString " of ") := hbad.lacks (by decide)
  have hcollection : Lacks bad collection := by
    obtain ⟨b, hb, hcode⟩ := loopCollection_eq_ok h
    obtain ⟨code, hsame, hlacks⟩ := (hn.binding? hb).code
    exact Json.str.inj (hcode.symm.trans hsame) ▸ hlacks
  have hhead : TagFree (ofString "repeat.for") := by decide
  exact ⟨hbad.lacks hhead, _, rfl,
    lacks_append.mpr ⟨lacks_append.mpr ⟨hname, hof⟩, hcollection⟩⟩

end Rules

end Markup
end ElementCompiler
