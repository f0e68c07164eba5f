import ElementCompiler.Text.AlphanumericTable
import ElementCompiler.Text.IdentifierTable
import ElementCompiler.Text.PrintableTable

set_option autoImplicit false

/-!
Classes of characters. Blanks, letters and numbers are those of Unicode; `isMember` is the class of
characters that may continue a name in a snippet, `isNameStart` those that may begin the name of a
member.
-/

namespace ElementCompiler.Text

/-- Membership of a code point in a list of inclusive ranges. -/
def inRanges (ranges : List (Nat × Nat)) (n : Nat) : Bool :=
  ranges.any fun r => r.1 ≤ n && n ≤ r.2

/-- White space, the ASCII information separators included. -/
def isBlank (c : Char) : Bool :=
  let n := c.toNat
  (9 ≤ n && n ≤ 13) || (28 ≤ n && n ≤ 32) || n == 0x85 || n == 0xA0 || n == 0x1680 ||
    (0x2000 ≤ n && n ≤ 0x200A) || n == 0x2028 || n == 0x2029 || n == 0x202F || n == 0x205F ||
    n == 0x3000

def isAlphanumeric (c : Char) : Bool :=
  if c.toNat < 128 then c.isAlphanum else inRanges alphanumericRanges c.toNat

/-- The value of a digit of any script that writes numbers by tens. -/
def decimalValue? (c : Char) : Option Nat :=
  if c.isDigit then some (c.toNat - 48)
  else (decimalZeros.find? fun first => first ≤ c.toNat && c.toNat < first + 10).map (c.toNat - ·)

def isDecimalDigit (c : Char) : Bool := (decimalValue? c).isSome

/-- A letter, a number or the low line. -/
def isWord (c : Char) : Bool := c == '_' || isAlphanumeric c

/-- A character that continues a name in a snippet. -/
def isMember (c : Char) : Bool := c == '$' || isWord c

/-- A character that begins an identifier of Unicode, or the low line. -/
def isIdentifierStart (c : Char) : Bool :=
  if c.toNat < 128 then c.isAlpha || c == '_' else inRanges identifierStartRanges c.toNat

/-- A character that continues an identifier of Unicode. -/
def isIdentifierPart (c : Char) : Bool :=
  isIdentifierStart c ||
    if c.toNat < 128 then c.isDigit else inRanges identifierTailRanges c.toNat

/-- A character that begins a member name after `state.` or `props.`: an ASCII letter, `_` or
    `$`. -/
def isNameStart (c : Char) : Bool := c.isAlpha || c == '_' || c == '$'

/-- A character that a quoted text shows as itself. -/
def isVisible (c : Char) : Bool :=
  if c.toNat < 128 then 32 ≤ c.toNat && c.toNat < 127 else !inRanges hiddenRanges c.toNat

/-- A lower-case ASCII letter or a digit. -/
def isLowerOrDigit (c : Char) : Bool := c.isLower || c.isDigit

theorem isMember_of_isWord {c : Char} (h : isWord c = true) : isMember c = true := by
  simp [isMember, h]

end ElementCompiler.Text
