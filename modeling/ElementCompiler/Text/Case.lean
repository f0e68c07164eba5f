import ElementCompiler.Text.Basic
import ElementCompiler.Text.Class
import ElementCompiler.Text.CaseTable

set_option autoImplicit false

/-!
Upper and lower case of whole texts. A character may become several, and a capital sigma at the end
of a word takes its final form.
-/

namespace ElementCompiler.Text

/-- The first run that holds the code point, applied to it. -/
def shiftBy (runs : List CaseRun) (n : Nat) : Nat :=
  match runs.find? fun r => r.first ≤ n && n ≤ r.last && (n - r.first) % r.step == 0 with
  | some r => (n + r.shift).toNat
  | none => n

def caseOf (special : List (Nat × List Nat)) (runs : List CaseRun) (c : Char) : List Char :=
  match special.lookup c.toNat with
  | some ns => ns.map Char.ofNat
  | none => [Char.ofNat (shiftBy runs c.toNat)]

def upperChar (c : Char) : List Char :=
  if c.toNat < 128 then [c.toUpper] else caseOf upperSpecial upperRuns c

def lowerChar (c : Char) : List Char :=
  if c.toNat < 128 then [c.toLower] else caseOf lowerSpecial lowerRuns c

def isCased (c : Char) : Bool := inRanges casedRanges c.toNat

def isCaseIgnorable (c : Char) : Bool := inRanges caseIgnorableRanges c.toNat

/-- Whether the nearest character that is not passed over has case. -/
def nextIsCased (s : Text) : Bool :=
  match s.dropWhile (·.is isCaseIgnorable) with
  | [] => false
  | c :: _ => c.is isCased

/-- What becomes of a code point when characters change; a half stays. -/
def mapChar (f : Char → List Char) : CodePoint → Text
  | .char c => (f c).map .char
  | .half n => [.half n]

/-- The small form of a capital sigma between `before`, nearest character first, and `rest`. -/
def smallSigma (before rest : Text) : CodePoint :=
  if nextIsCased before && !nextIsCased rest then 'ς' else 'σ'

/-- Lower case with the characters before, nearest first, at hand. -/
def lowerFrom : Text → Text → Text
  | _, [] => []
  | before, c :: cs =>
    (if c = 'Σ' then [smallSigma before cs] else mapChar lowerChar c) ++ lowerFrom (c :: before) cs

def upper (s : Text) : Text := s.flatMap (mapChar upperChar)

def lower (s : Text) : Text := lowerFrom [] s

/-- A text that has letters with case, all of them capital. -/
def isUpperCase (s : Text) : Bool := s != "" && upper s == s && lower s != s

end ElementCompiler.Text
