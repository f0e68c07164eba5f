import ElementCompiler.Proofs.Attempt
import ElementCompiler.Proofs.Markup.Closing

set_option autoImplicit false

/-!
The rule of a node. What picks it is the name of the node, its literal text and the code of its text
binding.
-/

namespace ElementCompiler.Markup

open Attempt Text

variable {n : Node} {code : Text}

/-- The code of a text binding that stands for the children of the component. -/
def isPlaceholder (code : Text) : Bool := trim code == "props.children" || trim code == "children"

/-- Nothing on the node comes before its text binding. -/
structure BindsText (n : Node) (code : Text) : Prop where
  notFragment : n.isFragment = false
  notSlot : n.isSlot = false
  noLiteral : Entries.get? n.properties textKey = none
  bound : ∃ b, n.binding? textKey = some b ∧ b.code = .str code
  given : code ≠ []

theorem nonEmptyText?_eq_some {j : Json} : j.nonEmptyText? = some code ↔ j = .str code ∧ code ≠ [] := by
  cases j with
  | str s =>
    rw [Json.nonEmptyText?]
    split <;> grind
  | _ => simp [Json.nonEmptyText?]

theorem isChildrenPlaceholder_of_bound {b : Binding} (hb : n.binding? textKey = some b)
    (hcode : b.code = .str code) : isChildrenPlaceholder n = .ok (isPlaceholder code) := by
  unfold isChildrenPlaceholder
  simp only [hb, hcode]
  rfl

theorem BindsText.blockRule (h : BindsText n code) : blockRule n =
    .ok (if isPlaceholder code then .childrenPlaceholder else .interpolation code) := by
  obtain ⟨b, hb, hcode⟩ := h.bound
  have hgiven : b.code.nonEmptyText? = some code := nonEmptyText?_eq_some.mpr ⟨hcode, h.given⟩
  unfold Markup.blockRule
  rw [h.notFragment, h.notSlot, isChildrenPlaceholder_of_bound hb hcode, h.noLiteral, hb]
  simp only [Option.bind_some, hgiven]
  cases isPlaceholder code <;> rfl

/-- The facts that pick the rule of a node. -/
theorem blockRule_eq_ok {rule : BlockRule} (h : blockRule n = .ok rule) :
    match rule with
    | .fragment => n.isFragment = true
    | .slot => n.isSlot = true
    | .childrenPlaceholder => isChildrenPlaceholder n = .ok true
    | .literalText value => Entries.get? n.properties textKey = some value
    | .interpolation code => BindsText n code ∧ isPlaceholder code = false
    | .loop => n.isLoop = true
    | .conditional => n.isConditional = true
    | .element => n.isLoop = false := by
  unfold blockRule at h
  split at h
  next hfragment =>
    obtain rfl := Except.ok.inj h
    exact hfragment
  rename_i hfragment
  split at h
  next hslot =>
    obtain rfl := Except.ok.inj h
    exact hslot
  rename_i hslot
  obtain ⟨placeholder, hplaceholder, h⟩ := bind_eq_ok.mp h
  split at h
  next hyes =>
    obtain rfl := Except.ok.inj h
    rwa [hyes] at hplaceholder
  rename_i hno
  split at h
  next value hvalue =>
    obtain rfl := Except.ok.inj h
    exact hvalue
  rename_i hliteral
  split at h
  next code hcode =>
    obtain rfl := Except.ok.inj h
    obtain ⟨b, hb, hcode⟩ := Option.bind_eq_some_iff.mp hcode
    obtain ⟨hcode, hgiven⟩ := nonEmptyText?_eq_some.mp hcode
    rw [isChildrenPlaceholder_of_bound hb hcode] at hplaceholder
    obtain rfl := Except.ok.inj hplaceholder
    exact ⟨⟨by simpa using hfragment, by simpa using hslot, hliteral, ⟨b, hb, hcode⟩, hgiven⟩,
      by simpa using hno⟩
  split at h
  next hloop =>
    obtain rfl := Except.ok.inj h
    exact hloop
  rename_i hloop
  split at h
  next hconditional =>
    obtain rfl := Except.ok.inj h
    exact hconditional
  next =>
    obtain rfl := Except.ok.inj h
    simpa using hloop

/-- The rule for the node comes from its name, its literal text and its text binding. -/
theorem blockRule_congr {n' : Node} (hname : n'.name = n.name)
    (hliteral : Entries.get? n'.properties textKey = Entries.get? n.properties textKey)
    (hbinding : n'.binding? textKey = n.binding? textKey) : blockRule n' = blockRule n := by
  unfold blockRule isChildrenPlaceholder Node.isFragment Node.isSlot Node.isLoop Node.isConditional
  rw [hname, hliteral, hbinding]

theorem isText_unique {j : Json} {s t : Text} (hs : j.isText s = true) (hne : s ≠ t) :
    j.isText t = false := by
  unfold Json.isText at hs ⊢
  split at hs
  next => grind
  next => cases hs

/-- No other rule with children is for a loop. -/
theorem isLoop_eq_false {rule : BlockRule} (h : blockRule n = .ok rule)
    (hrule : rule = .fragment ∨ rule = .slot ∨ rule = .conditional ∨ rule = .element) :
    n.isLoop = false := by
  have hfacts := blockRule_eq_ok h
  rcases hrule with rfl | rfl | rfl | rfl
  · exact isText_unique hfacts (by decide)
  · exact isText_unique hfacts (by decide)
  · exact isText_unique hfacts (by decide)
  · exact hfacts

end ElementCompiler.Markup
