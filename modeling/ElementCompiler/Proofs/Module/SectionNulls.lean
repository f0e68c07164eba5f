import ElementCompiler.Proofs.Markup.NullWord
import ElementCompiler.Proofs.Markup.Quoting
import ElementCompiler.Proofs.Module.LoweredTexts
import ElementCompiler.Proofs.Module.Sections

set_option autoImplicit false

/-!
Lowering and the sections of a class show no missing value. Refs are written as their names, members behind
the instance or bare, and quotes as an entity: none of it brings the word of a missing value into a snippet,
or lets a snippet run on at its end. What the compiler writes between the texts of a component keeps them
apart, so a section has the word only if one of them has it.
-/

namespace ElementCompiler

open Attempt
open Json (Rewrites nullFree_str endsOff_str)

namespace Snippet

section Refs

variable {lead name field s : Text} {fields : List (Text × Text)}

variable (hlead : lead = [] ∨ Text.isBlock lead = true)
include hlead

end Refs
end Snippet

namespace Module

section Passes

variable {m : Members} {names : List Text} {j k : Json}

end Passes

open Text

section State

variable {mapper : CodeMapper} {state : Entries StateValue} {between after : Text}

end State

section Bridge

variable {context : ContextSpec}

structure ContextBridge.NullFree (b : ContextBridge) : Prop where
  readCode : Text.NullFree b.readCode
  writeCode : Text.NullFree b.writeCode

variable {b : ContextBridge}

end Bridge

section Sections

variable {c : Component} (hc : c.NullFree)
include hc

/-- What the sections are made of beside the component has no word of a missing value. -/
structure SectionParts.NullFree (p : SectionParts) : Prop where
  bindableProps : ∀ x ∈ p.bindableProps, Text.NullFree x
  assignedImports : ∀ key ∈ p.assignedImports, Text.NullFree key.display
  outputs : ∀ x ∈ p.outputs, Text.NullFree x
  domRefs : ∀ x ∈ p.members.domRefs, Text.NullFree x
  valueRefs : ∀ x ∈ p.valueRefs, Text.NullFree x
  injectables : ∀ x ∈ p.injectables, Text.NullFree x
  bridge : p.bridge.NullFree

end Sections
end Module
end ElementCompiler
