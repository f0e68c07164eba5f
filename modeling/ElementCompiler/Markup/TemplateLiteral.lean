import ElementCompiler.Text.Literal

set_option autoImplicit false

/-!
Text inside a template literal: backslashes, backticks and the opening of a substitution are
escaped.
-/

namespace ElementCompiler.Markup

open Text

def escapeTemplate (s : Text) : Text :=
  replace "$\x7b" "\\$\x7b" (replace "`" "\\`" (replace "\\" "\\\\" s))

end ElementCompiler.Markup
