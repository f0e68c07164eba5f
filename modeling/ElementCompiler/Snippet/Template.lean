import ElementCompiler.Fault
import ElementCompiler.Text.Class

set_option autoImplicit false

/-!
Replacement templates. In the text that replaces an occurrence a backslash begins an escape: for a
control character or the backslash, for a character by its octal number, or `\\g<0>` for the
occurrence itself. There are no groups, so a reference to one is a fault, and so is a letter that
is no escape. A backslash before any other character stands for itself.
-/

namespace ElementCompiler.Snippet

open Text

inductive TemplatePart where
  | text (t : Text)
  | occurrence
  deriving DecidableEq, Repr

/-- The escapes of one letter and of the backslash. -/
def letterEscapes : List (CodePoint × Nat) := [
  (.char 'a', 7), (.char 'b', 8), (.char 'f', 12), (.char 'n', 10), (.char 'r', 13), (.char 't', 9),
  (.char 'v', 11), (.char '\\', 92)]

def octalValue? (c : CodePoint) : Option Nat :=
  if 48 ≤ c.number ∧ c.number ≤ 55 then some (c.number - 48) else none

def isIdentifier : Text → Bool
  | [] => false
  | c :: cs => c.is isIdentifierStart && cs.all (·.is isIdentifierPart)

/-- A blank that may stand around a number. -/
def isNumberBlank (c : Char) : Bool := isBlank c && !(28 ≤ c.toNat && c.toNat ≤ 31)

def isZeroDigit (c : Char) : Bool := decimalValue? c == some 0

/-- Zeros with at most one low line between two of them; `afterDigit` says whether one has just been
    read. -/
def areZeros : (afterDigit : Bool) → Text → Bool
  | afterDigit, [] => afterDigit
  | afterDigit, c :: cs =>
    if c = '_' then afterDigit && areZeros false cs else c.is isZeroDigit && areZeros true cs

def dropSign : Text → Text
  | [] => []
  | c :: cs => if c = '+' || c = '-' then cs else c :: cs

/-- Whether a group is named by the number zero. -/
def isZero (name : Text) : Bool :=
  let inner := (name.dropWhile (·.is isNumberBlank)).reverse.dropWhile (·.is isNumberBlank)
  let digits := dropSign inner.reverse
  areZeros false digits && (digits.filter (· != .char '_')).length ≤ digitLimit

/-- What the group between the angle brackets stands for, and how many characters its reference has
    after the backslash; `rest` begins after the opening bracket. -/
def groupReference (rest : Text) : Attempt (TemplatePart × Nat) :=
  let name := rest.takeWhile (· != .char '>')
  match rest.dropWhile (· != .char '>') with
  | [] => .error .badTemplate
  | _ :: after =>
    if name.contains '\\' then .error .badTemplate
    else if isIdentifier name then
      .error (if after = "\\" then .badTemplate else .unknownGroup)
    else if isZero name then .ok (.occurrence, name.length + 3)
    else .error .badTemplate

/-- The escape that begins with a zero: at most two more octal digits belong to it. -/
def zeroEscape (rest : Text) : TemplatePart × Nat :=
  let digits := (rest.take 2).map octalValue?
  match digits with
  | [some a, some b] => (.text [.ofNumber (a * 8 + b)], 3)
  | some a :: _ => (.text [.ofNumber a], 2)
  | _ => (.text [.ofNumber 0], 1)

/-- What an escape stands for, given what follows its backslash, and how many characters of that
    belong to it. -/
def escapeAt : Text → Attempt (TemplatePart × Nat)
  | [] => .error .badTemplate
  | .char 'g' :: .char '<' :: rest => groupReference rest
  | .char '0' :: rest => .ok (zeroEscape rest)
  | c :: rest =>
    match letterEscapes.lookup c with
    | some n => .ok (.text [.ofNumber n], 1)
    | none =>
      if c.is Char.isDigit then
        match (c :: rest.take 2).map octalValue? with
        | [some a, some b, some c] =>
          if a < 4 then .ok (.text [.ofNumber ((a * 8 + b) * 8 + c)], 3) else .error .badTemplate
        | _ => .error .badTemplate
      else if c.is Char.isAlpha then .error .badTemplate
      else .ok (.text ['\\', c], 1)

/-- The parts of a template; `skip` counts the characters of an escape that are still to be passed
    over. -/
def templateFrom : (skip : Nat) → Text → Attempt (List TemplatePart)
  | _, [] => .ok []
  | skip + 1, _ :: cs => templateFrom skip cs
  | 0, c :: cs =>
    if c = '\\' then do
      let (part, used) ← escapeAt cs
      return part :: (← templateFrom used cs)
    else do return .text [c] :: (← templateFrom 0 cs)

def template (s : Text) : Attempt (List TemplatePart) := templateFrom 0 s

def TemplatePart.expand (occurrence : Text) : TemplatePart → Text
  | .text t => t
  | .occurrence => occurrence

/-- What a template writes for an occurrence. -/
def expand (parts : List TemplatePart) (occurrence : Text) : Text :=
  parts.flatMap (TemplatePart.expand occurrence)

/-- A text without a backslash stands for itself. -/
theorem template_of_notMem {s : Text} (h : CodePoint.char '\\' ∉ s) :
    template s = .ok (s.map fun c => .text [c]) := by
  unfold template
  induction s with
  | nil => rfl
  | cons c cs ih =>
    have hc : c ≠ .char '\\' := fun e => h (by simp [e])
    have hcs : CodePoint.char '\\' ∉ cs := fun e => h (by simp [e])
    simp [templateFrom, hc, ih hcs, bind, Except.bind, pure, Except.pure]

end ElementCompiler.Snippet
