import ElementCompiler.Text.Blank
import ElementCompiler.Text.Literal

set_option autoImplicit false

/-!
Statement blocks: a snippet that begins and ends with a brace loses both of them.
-/

namespace ElementCompiler.Snippet

open Text

def unwrapBlock (code : Text) : Text :=
  match trim code with
  | .char '\x7b' :: rest => if rest.getLast? = some '\x7d' then trim rest.dropLast else code
  | _ => code

end ElementCompiler.Snippet
