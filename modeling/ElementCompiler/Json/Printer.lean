import ElementCompiler.Decimal.Layout
import ElementCompiler.Json.Basic
import ElementCompiler.Text.Quoted

set_option autoImplicit false

/-!
JSON text. A format says whether everything outside ASCII is escaped, what separates items and
keys, and how far nested lines are indented; empty lists and objects stay on one line. Every key is
written as a text. A half of a surrogate pair is a character like any other.
-/

namespace ElementCompiler.Json

structure Format where
  asciiOnly : Bool
  comma : Text
  colon : Text
  /-- The blanks by which each nesting level moves, or one line for all. -/
  indent : Option Nat

/-- One line without blanks, characters as they are. -/
def Format.compact : Format := ⟨false, ",", ":", none⟩

/-- One line, ASCII only. -/
def Format.line : Format := ⟨true, ", ", ": ", none⟩

/-- Two blanks for each level, ASCII only. -/
def Format.document : Format := ⟨true, ",", ": ", some 2⟩

def textLayout : Decimal.Layout := ⟨"Infinity", "-Infinity", "NaN"⟩

def unicodeEscape (n : Nat) : Text := "\\u" ++ Text.hex 4 n

/-- A code point by its escape; beyond the first plane by the two halves of a surrogate pair. -/
def escaped (c : CodePoint) : Text :=
  if c.number < 0x10000 then unicodeEscape c.number
  else
    let n := c.number - 0x10000
    unicodeEscape (0xD800 + n / 0x400) ++ unicodeEscape (0xDC00 + n % 0x400)

def stringPoint (asciiOnly : Bool) (c : CodePoint) : Text :=
  if c = '"' then "\\\""
  else if c = '\\' then "\\\\"
  else if c = '\n' then "\\n"
  else if c = '\r' then "\\r"
  else if c = '\t' then "\\t"
  else if c.number = 8 then "\\b"
  else if c.number = 12 then "\\f"
  else if c.number < 32 || (asciiOnly && 127 ≤ c.number) then escaped c
  else [c]

def stringText (asciiOnly : Bool) (s : Text) : Text :=
  '"' :: (s.flatMap (stringPoint asciiOnly) ++ "\"")

/-- A value that is no list and no object, without quotes. -/
def keyText : Key → Text
  | .null => "null"
  | .bool b => if b then "true" else "false"
  | .int n => toString n
  | .float x => textLayout.text x
  | .text s => s

def Format.newline (f : Format) (depth : Nat) : Text :=
  match f.indent with
  | none => ""
  | some width => '\n' :: List.replicate (width * depth) ' '

mutual

/-- The value as text, with what follows it. -/
def printOnto (f : Format) (depth : Nat) : Json → (rest : Text) → Text
  | .null, rest => keyText .null ++ rest
  | .bool b, rest => keyText (.bool b) ++ rest
  | .int n, rest => keyText (.int n) ++ rest
  | .float x, rest => keyText (.float x) ++ rest
  | .str s, rest => stringText f.asciiOnly s ++ rest
  | .arr [], rest => "[]" ++ rest
  | .arr (j :: js), rest =>
    "[" ++ f.newline (depth + 1) ++
      printOnto f (depth + 1) j (printItems f (depth + 1) js (f.newline depth ++ "]" ++ rest))
  | .obj [], rest => "\x7b\x7d" ++ rest
  | .obj ((k, j) :: fields), rest =>
    "\x7b" ++ f.newline (depth + 1) ++ stringText f.asciiOnly (keyText k) ++ f.colon ++
      printOnto f (depth + 1) j
        (printFields f (depth + 1) fields (f.newline depth ++ "\x7d" ++ rest))

/-- The further items of a list, with what follows them. -/
def printItems (f : Format) (depth : Nat) : List Json → (rest : Text) → Text
  | [], rest => rest
  | j :: js, rest =>
    f.comma ++ f.newline depth ++ printOnto f depth j (printItems f depth js rest)

/-- The further fields of an object, with what follows them. -/
def printFields (f : Format) (depth : Nat) : List (Key × Json) → (rest : Text) → Text
  | [], rest => rest
  | (k, j) :: fields, rest =>
    f.comma ++ f.newline depth ++ stringText f.asciiOnly (keyText k) ++ f.colon ++
      printOnto f depth j (printFields f depth fields rest)

end

def print (f : Format) (j : Json) : Text := printOnto f 0 j []

end ElementCompiler.Json
