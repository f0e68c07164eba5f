import ElementCompiler.Proofs.Import.Binding
import ElementCompiler.Proofs.Module.Imports

set_option autoImplicit false

/-!
The imported names that a module binds. An import whose canonical name has no closing tag in the
markup is imported by the code, with all its local names; an import that the markup uses as an
element is imported by the view alone, and its other names are bound nowhere.
-/

namespace ElementCompiler.Module

open Attempt Text Import

section Bound

variable {o : CompileOptions} {c : Component}

end Bound

end ElementCompiler.Module
