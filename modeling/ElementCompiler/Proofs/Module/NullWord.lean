import ElementCompiler.Proofs.Component.Nulls
import ElementCompiler.Proofs.Component.RoundTrip
import ElementCompiler.Proofs.Component.WellFormed
import ElementCompiler.Proofs.Markup.Elements
import ElementCompiler.Proofs.Module.ImportNulls
import ElementCompiler.Proofs.Module.SectionNulls

set_option autoImplicit false

/-!
Modules that show no missing value. A component that is read from a value without the word of one, and
without nulls where they would be shown, is compiled to a module without the word.
-/

namespace ElementCompiler.Module

open Attempt Text

section View

variable {c : Component} {body : ViewBody}

end View

section Layout

/-- What a module shows has no word of a missing value. -/
structure ModuleParts.NullFree (p : ModuleParts) : Prop where
  runtimeFeatures : ∀ x ∈ p.runtimeFeatures, Text.NullFree x
  codeImports : ∀ x ∈ p.codeImports, Text.NullFree x
  localExports : Text.NullFree p.localExports
  types : ∀ t ∈ p.types, t.ShowsNullFree
  defaultProps : ∀ x ∈ p.defaultProps, Text.NullFree x
  elementName : Text.NullFree p.elementName
  view : Text.NullFree p.view
  name : Text.NullFree p.name
  sections : ∀ s ∈ p.sections, Text.NullFree s

variable {p : ModuleParts}

end Layout

section Compiled

variable {c : Component}

end Compiled
end ElementCompiler.Module
