import ElementCompiler.Text.Blank
import ElementCompiler.Text.Literal

set_option autoImplicit false

/-!
Lines and indentation. `indentRest` pads the lines after the first, `indentBlock` every line that
is not blank, `indentSection` the first line and every later line that is not empty, where a
section breaks at every character that ends a line. `unifyBreaks` writes every line break of a file
as a newline.
-/

namespace ElementCompiler.Text

def pad (width : Nat) : Text := List.replicate width ' '

/-- A pad after each newline that does not stand before another or at the end. -/
def indentRest (width : Nat) : Text → Text
  | [] => []
  | c :: cs =>
    if c = '\n' then
      match cs with
      | [] => [c]
      | d :: _ => if d = '\n' then c :: indentRest width cs
        else c :: (pad width ++ indentRest width cs)
    else c :: indentRest width cs

/-- The lines of a text that is broken at each newline; never empty. -/
def lines : Text → List Text
  | [] => [[]]
  | c :: cs =>
    if c = '\n' then [] :: lines cs
    else match lines cs with
      | [] => [[c]]
      | l :: ls => (c :: l) :: ls

def indentLine (width : Nat) (line : Text) : Text :=
  if isBlankText line then line else pad width ++ line

def indentBlock (width : Nat) (s : Text) : Text :=
  join "\n" ((lines s).map (indentLine width))

/-- A character that ends a line of a section. -/
def isLineEnd (c : Char) : Bool :=
  let n := c.toNat
  (10 ≤ n && n ≤ 13) || (28 ≤ n && n ≤ 30) || n == 0x85 || n == 0x2028 || n == 0x2029

/-- Every carriage return as a newline, together with a newline that follows it. -/
def unifyBreaks : Text → Text
  | [] => []
  | .char '\r' :: .char '\n' :: cs => '\n' :: unifyBreaks cs
  | c :: cs => (if c = '\r' then '\n' else c) :: unifyBreaks cs

/-- The pieces between line ends, where a carriage return and a newline after it are one line
    end. -/
def pieces : Text → List Text
  | [] => [[]]
  | .char '\r' :: .char '\n' :: cs => [] :: pieces cs
  | c :: cs =>
    if c.is isLineEnd then [] :: pieces cs
    else match pieces cs with
      | [] => [[c]]
      | l :: ls => (c :: l) :: ls

/-- The lines of a section; a newline is put after the last one, so that it ends as the others
    do. -/
def sectionLines (s : Text) : List Text := (pieces (s ++ "\n")).dropLast

def indentNonEmpty (width : Nat) (line : Text) : Text :=
  if line.isEmpty then line else pad width ++ line

/-- The section with two blanks before its first line and before each later line that has text. -/
def indentSection (s : Text) : Text :=
  match sectionLines s with
  | [] => []
  | first :: rest => join "\n" ((pad 2 ++ first) :: rest.map (indentNonEmpty 2))

end ElementCompiler.Text
