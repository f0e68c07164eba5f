import ElementCompiler.Text.Basic
import ElementCompiler.Text.Class

set_option autoImplicit false

/-!
Blanks at the ends of a text: `trim` drops them on both sides, `isBlankText` holds of a text that
has nothing else.
-/

namespace ElementCompiler.Text

def trimStart (s : Text) : Text := s.dropWhile (·.is isBlank)

def trimEnd (s : Text) : Text := (s.reverse.dropWhile (·.is isBlank)).reverse

def trim (s : Text) : Text := trimEnd (trimStart s)

def isBlankText (s : Text) : Bool := s.all (·.is isBlank)

end ElementCompiler.Text
