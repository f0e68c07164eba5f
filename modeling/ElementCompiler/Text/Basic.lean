set_option autoImplicit false

/-!
Texts are sequences of code points. A code point is a character, or one half of a surrogate pair on
its own, which an escape can name without its partner. A text that has such a half has no UTF-8
form. Strings and characters stand for the texts and code points that they are.
-/

namespace ElementCompiler

inductive CodePoint where
  | char (c : Char)
  /-- The half of a surrogate pair with the number `0xD800 + n`. -/
  | half (n : Fin 2048)
  deriving DecidableEq, Repr, Inhabited

abbrev Text := List CodePoint

namespace CodePoint

instance : Coe Char CodePoint := ⟨.char⟩

def number : CodePoint → Nat
  | .char c => c.toNat
  | .half n => 0xD800 + n.val

def ofNumber (n : Nat) : CodePoint :=
  if h : 0xD800 ≤ n ∧ n < 0xE000 then .half ⟨n - 0xD800, by omega⟩ else .char (Char.ofNat n)

/-- Membership in a class of characters; a half belongs to none. -/
def is (p : Char → Bool) : CodePoint → Bool
  | .char c => p c
  | .half _ => false

/-- The character that a code point is. -/
def char? : CodePoint → Option Char
  | .char c => some c
  | .half _ => none

def isHalf : CodePoint → Bool
  | .char _ => false
  | .half _ => true

theorem ofNumber_number (c : CodePoint) : ofNumber c.number = c := by
  cases c with
  | char c =>
    have hc : c.toNat < 0xD800 ∨ 0xDFFF < c.toNat ∧ c.toNat < 0x110000 := c.valid
    have h : ¬ (0xD800 ≤ c.toNat ∧ c.toNat < 0xE000) := by omega
    simp [ofNumber, number, h]
  | half n =>
    have h : 0xD800 + n.val < 0xE000 := by omega
    simp [ofNumber, number, h]

end CodePoint

namespace Text

def ofString (s : String) : Text := s.toList.map .char

instance : Coe String Text := ⟨ofString⟩

/-- The string of a text that has characters only. -/
def string? (s : Text) : Option String := (s.mapM CodePoint.char?).map String.ofList

/-- The UTF-8 form of a text that has characters only. -/
def utf8? (s : Text) : Option ByteArray := s.string?.map String.toUTF8

/-- The text that the bytes are the UTF-8 form of. -/
def ofUtf8? (bytes : ByteArray) : Option Text := (String.fromUTF8? bytes).map ofString

def hasHalf (s : Text) : Bool := s.any CodePoint.isHalf

/-- The order of texts by the numbers of their code points. -/
def atMost : Text → Text → Bool
  | [], _ => true
  | _ :: _, [] => false
  | c :: s, d :: t => c.number < d.number || (c.number == d.number && atMost s t)

@[simp] theorem ofString_empty : ofString "" = [] := rfl

@[simp] theorem hasHalf_ofString (s : String) : hasHalf (ofString s) = false := by
  simp [hasHalf, ofString, CodePoint.isHalf]

end Text
end ElementCompiler
