import ElementCompiler.Component.Visitor
import ElementCompiler.Snippet.Relocate

set_option autoImplicit false

/-!
Refs and the fields that store them. A ref bound to an element is stored under its own name, a ref
that only holds a value under its name with a low line in front.
-/

namespace ElementCompiler

/-- Each ref with its storage field: declared refs first, then refs that only elements have. -/
def Component.refFields (c : Component) (domRefs : List Text) : List (Text × Text) :=
  let declared := Entries.keys c.refs
  let names := declared ++ (domRefs.filter fun r => !declared.contains r).eraseDups
  names.map fun name => (name, if domRefs.contains name then name else "_" ++ name)

/-- The declared refs that no element is bound to. -/
def Component.valueRefs (c : Component) (domRefs : List Text) : List Text :=
  (Entries.keys c.refs).filter fun r => !domRefs.contains r

/-- The visitor that relocates refs: behind the receptor in hooks, state and initial values, without
    it in bindings; the bindings that declare a ref stay. -/
def refVisitor (fields : List (Text × Text)) (lead : Text) : Visitor Pass where
  hook := Pass.step (Snippet.relocateRefs fields lead)
  deps := pure
  state := Pass.step (Snippet.relocateRefs fields lead)
  refArgument := Pass.step (Snippet.relocateRefs fields lead)
  binding := fun key b =>
    if key == "ref" then pure b else Pass.step (onBindingCode (Snippet.relocateRefs fields "")) b
  property := pure

/-- The component with its refs relocated to their fields. -/
def Component.mapRefs (c : Component) (domRefs : List Text) (lead : Text) : Edited :=
  let fields := c.refFields domRefs
  if fields.isEmpty then ⟨c, none⟩ else (refVisitor fields lead).edit c

end ElementCompiler
