import ElementCompiler.Text.Basic
import ElementCompiler.Text.Class

set_option autoImplicit false

/-!
Quoted text in messages: single quotes, or double quotes around a text that holds a single quote
and no double one; what has no visible form is written by escape.
-/

namespace ElementCompiler.Text

/-- The last hexadecimal digit of `n`. -/
def hexDigit (n : Nat) : Char := "0123456789abcdef".toList.getD (n % 16) '0'

/-- The last `width` hexadecimal digits of `n`. -/
def hex : Nat → Nat → Text
  | 0, _ => []
  | width + 1, n => hex width (n / 16) ++ [.char (hexDigit n)]

def quotePoint (quote c : CodePoint) : Text :=
  if c = quote || c = '\\' then ['\\', c]
  else if c = '\n' then "\\n"
  else if c = '\r' then "\\r"
  else if c = '\t' then "\\t"
  else if c.is isVisible then [c]
  else if c.number < 0x100 then "\\x" ++ hex 2 c.number
  else if c.number < 0x10000 then "\\u" ++ hex 4 c.number
  else "\\U" ++ hex 8 c.number

def quoteOf (s : Text) : CodePoint := if s.contains '\'' && !s.contains '"' then '"' else '\''

def quoted (s : Text) : Text := quoteOf s :: (s.flatMap (quotePoint (quoteOf s)) ++ [quoteOf s])

end ElementCompiler.Text
