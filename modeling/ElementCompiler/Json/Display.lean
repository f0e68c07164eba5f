import ElementCompiler.Decimal.Layout
import ElementCompiler.Json.Basic
import ElementCompiler.Text.Literal
import ElementCompiler.Text.Quoted

set_option autoImplicit false

/-!
Values in running text. `display` shows a text as it is and everything else by its literal form;
inside lists and objects texts are quoted.
-/

namespace ElementCompiler

namespace Json

def displayLayout : Decimal.Layout := ⟨"inf", "-inf", "nan"⟩

/-- A key inside an object. -/
def keyLiteral : Key → Text
  | .null => "None"
  | .bool b => if b then "True" else "False"
  | .int n => toString n
  | .float x => displayLayout.text x
  | .text s => Text.quoted s

mutual

def literal : Json → Text
  | .arr items => "[" ++ Text.join ", " (literals items) ++ "]"
  | .obj fields => "\x7b" ++ Text.join ", " (fieldLiterals fields) ++ "\x7d"
  | .null => keyLiteral .null
  | .bool b => keyLiteral (.bool b)
  | .int n => keyLiteral (.int n)
  | .float x => keyLiteral (.float x)
  | .str s => keyLiteral (.text s)

def literals : List Json → List Text
  | [] => []
  | j :: rest => literal j :: literals rest

def fieldLiterals : List (Key × Json) → List Text
  | [] => []
  | (k, j) :: rest => (keyLiteral k ++ ": " ++ literal j) :: fieldLiterals rest

end

def display : Json → Text
  | .str s => s
  | j => j.literal

/-- The kind of a value as messages name it. -/
def kindName : Json → Text
  | .null => "NoneType"
  | .bool _ => "bool"
  | .int _ => "int"
  | .float _ => "float"
  | .str _ => "str"
  | .arr _ => "list"
  | .obj _ => "dict"

@[simp] theorem display_str (s : Text) : display (.str s) = s := rfl

end Json

/-- A key in running text. -/
def Key.display (k : Key) : Text := (Json.ofKey k).display

end ElementCompiler
