import ElementCompiler.Decimal.Layout
import ElementCompiler.Fault

set_option autoImplicit false

/-!
Reading JSON. Besides the standard, `NaN`, `Infinity` and `-Infinity` are numbers, a key given
twice takes its last value at its first place, and an escape may name half of a surrogate pair
alone. A refusal says what was missing and how many characters were left at that place.
-/

namespace ElementCompiler.Json

inductive Defect where
  | value
  | name
  | colon
  | comma
  | unterminated
  | control
  | badEscape
  | badUnicodeEscape
  | extraData
  | byteOrderMark
  deriving DecidableEq, Repr

def Defect.text : Defect → Text
  | .value => "Expecting value"
  | .name => "Expecting property name enclosed in double quotes"
  | .colon => "Expecting ':' delimiter"
  | .comma => "Expecting ',' delimiter"
  | .unterminated => "Unterminated string starting at"
  | .control => "Invalid control character at"
  | .badEscape => "Invalid \\escape"
  | .badUnicodeEscape => "Invalid \\uXXXX escape"
  | .extraData => "Extra data"
  | .byteOrderMark => "Unexpected UTF-8 BOM (decode using utf-8-sig)"

/-- What is wrong, and how many characters of the text were left where it is. -/
structure Refusal where
  defect : Defect
  left : Nat
  deriving DecidableEq, Repr

/-- Why a text is not read. -/
inductive Failure where
  | refused (r : Refusal)
  | integerTooLong (digits : Nat)
  deriving DecidableEq, Repr

def refuseAt {α : Type} (defect : Defect) (left : Nat) : Except Failure α :=
  .error (.refused ⟨defect, left⟩)

def refuse {α : Type} (defect : Defect) (rest : Text) : Except Failure α :=
  refuseAt defect rest.length

/-- The place of a refusal in the whole text: line and column from one, offset from zero. -/
def Refusal.message (r : Refusal) (whole : Text) : Text :=
  let offset := whole.length - r.left
  let before := whole.take offset
  let line := before.count (.char '\n') + 1
  let column := (before.reverse.takeWhile (· != .char '\n')).length + 1
  r.defect.text ++ ": line " ++ toString line ++ " column " ++ toString column ++
    " (char " ++ toString offset ++ ")"

def isSpace (c : CodePoint) : Bool := c = ' ' || c = '\t' || c = '\n' || c = '\r'

def skipSpace (s : Text) : Text := s.dropWhile isSpace

def hexValue? (c : CodePoint) : Option Nat :=
  let n := c.number
  if 48 ≤ n ∧ n ≤ 57 then some (n - 48)
  else if 97 ≤ n ∧ n ≤ 102 then some (n - 87)
  else if 65 ≤ n ∧ n ≤ 70 then some (n - 55)
  else none

def hexValue4? (a b c d : CodePoint) : Option Nat := do
  let a ← hexValue? a
  let b ← hexValue? b
  let c ← hexValue? c
  let d ← hexValue? d
  return ((a * 16 + b) * 16 + c) * 16 + d

def isHighHalf (n : Nat) : Bool := 0xD800 ≤ n && n < 0xDC00

def isLowHalf (n : Nat) : Bool := 0xDC00 ≤ n && n < 0xE000

def ofHalves (high low : Nat) : CodePoint :=
  .ofNumber (0x10000 + (high - 0xD800) * 0x400 + (low - 0xDC00))

def simpleEscape? (c : CodePoint) : Option CodePoint :=
  match c with
  | .char '"' => some '"'
  | .char '\\' => some '\\'
  | .char '/' => some '/'
  | .char 'b' => some (.ofNumber 8)
  | .char 'f' => some (.ofNumber 12)
  | .char 'n' => some '\n'
  | .char 'r' => some '\r'
  | .char 't' => some '\t'
  | _ => none

/-- The characters after `\u` that make one code point, and how many of them there are. The four
    digits have to be followed by something; a high half takes the low half after it. -/
def unicodeEscape? (s : Text) : Except Failure (CodePoint × Nat) :=
  match s with
  | a :: b :: c :: d :: rest@(_ :: _) =>
    match hexValue4? a b c d with
    | none => refuseAt .badUnicodeEscape (s.length + 1)
    | some n =>
      if isHighHalf n then
        match rest with
        | .char '\\' :: .char 'u' :: e :: f :: g :: h :: _ :: _ =>
          match hexValue4? e f g h with
          | none => refuseAt .badUnicodeEscape (rest.length - 1)
          | some m => .ok (if isLowHalf m then (ofHalves n m, 10) else (.ofNumber n, 4))
        | _ => .ok (.ofNumber n, 4)
      else .ok (.ofNumber n, 4)
  | _ => refuseAt .badUnicodeEscape (s.length + 1)

/-- The rest of a string after its opening quote; `start` is the text from that quote on, `skip`
    counts characters of an escape that are already read, and `done` is what has been read from its
    last character to its first. -/
def readString (start : Text) : (skip : Nat) → (done : Text) → Text → Except Failure (Text × Text)
  | _, _, [] => refuse .unterminated start
  | skip + 1, done, _ :: cs => readString start skip done cs
  | 0, done, c :: cs =>
    if c = '"' then .ok (done.reverse, cs)
    else if c = '\\' then
      match cs with
      | [] => refuse .unterminated start
      | .char 'u' :: digits => do
        let (x, n) ← unicodeEscape? digits
        readString start (n + 1) (x :: done) cs
      | e :: _ =>
        match simpleEscape? e with
        | none => refuseAt .badEscape (cs.length + 1)
        | some x => readString start 1 (x :: done) cs
    else if c.number < 32 then refuseAt .control (cs.length + 1)
    else readString start 0 (c :: done) cs

def isDigit (c : CodePoint) : Bool := c.is Char.isDigit

def natOfDigits (ds : Text) : Nat := ds.foldl (fun n c => n * 10 + (c.number - 48)) 0

/-- The whole part of a number: a single zero, or digits that begin with another. -/
def wholePart (s : Text) : Text × Text :=
  match s with
  | .char '0' :: rest => ("0", rest)
  | s => (s.takeWhile isDigit, s.dropWhile isDigit)

/-- A point with digits after it; a point alone is left where it is. -/
def fractionPart (s : Text) : Option Text × Text :=
  match s with
  | .char '.' :: d :: rest =>
    if isDigit d then (some (d :: rest.takeWhile isDigit), rest.dropWhile isDigit)
    else (none, s)
  | s => (none, s)

def signedDigits (negative : Bool) (s : Text) : Option (Int × Text) :=
  match s with
  | [] => none
  | d :: _ =>
    if isDigit d then
      let n : Int := natOfDigits (s.takeWhile isDigit)
      some (if negative then -n else n, s.dropWhile isDigit)
    else none

/-- An exponent mark with digits after it; a mark alone is left where it is. -/
def exponentPart (s : Text) : Option Int × Text :=
  match s with
  | c :: rest =>
    if c = 'e' || c = 'E' then
      let found := match rest with
        | .char '-' :: r => signedDigits true r
        | .char '+' :: r => signedDigits false r
        | r => signedDigits false r
      match found with
      | some (n, r) => (some n, r)
      | none => (none, s)
    else (none, s)
  | [] => (none, [])

/-- The whole number that the digits write. -/
def wholeNumber (negative : Bool) (digits : Text) : Except Failure Int :=
  if digitLimit < digits.length then .error (.integerTooLong digits.length)
  else
    let n : Int := natOfDigits digits
    .ok (if negative then -n else n)

/-- A number without its sign; with a fraction or an exponent it is a double. -/
def readMagnitude? (negative : Bool) (s : Text) : Option (Except Failure (Json × Text)) :=
  let (whole, rest) := wholePart s
  if whole.isEmpty then none
  else
    let (fraction, rest) := fractionPart rest
    let (exponent, rest) := exponentPart rest
    match fraction, exponent with
    | none, none => some ((wholeNumber negative whole).map fun n => (.int n, rest))
    | _, _ =>
      let digits := natOfDigits (whole ++ fraction.getD [])
      let places : Int := exponent.getD 0 - ((fraction.getD []).length : Int)
      some (.ok (.float (Decimal.read negative digits places), rest))

/-- The words that are values by themselves. -/
def words : List (Text × Json) := [
  ("null", .null), ("true", .bool true), ("false", .bool false), ("NaN", .float (0.0 / 0.0)),
  ("Infinity", .float (1.0 / 0.0)), ("-Infinity", .float (-1.0 / 0.0))]

def readWord? (s : Text) : Option (Json × Text) :=
  words.findSome? fun w => (Text.after? w.1 s).map fun rest => (w.2, rest)

def readScalar (s : Text) : Except Failure (Json × Text) :=
  match readWord? s with
  | some found => .ok found
  | none =>
    let found := match s with
      | .char '-' :: rest => readMagnitude? true rest
      | s => readMagnitude? false s
    found.getD (refuse .value s)

mutual

/-- One value at the start of the text. `fuel` bounds the number of nested readings; two more than
    twice the length of the text is always enough. -/
def readValue : Nat → Text → Except Failure (Json × Text)
  | 0, s => refuse .value s
  | fuel + 1, s =>
    match s with
    | .char '"' :: rest => do
      let (text, rest) ← readString s 0 [] rest
      return (.str text, rest)
    | .char '\x7b' :: rest =>
      match skipSpace rest with
      | .char '\x7d' :: rest => .ok (.obj [], rest)
      | rest => readFields fuel [] rest
    | .char '[' :: rest =>
      match skipSpace rest with
      | .char ']' :: rest => .ok (.arr [], rest)
      | rest => readItems fuel [] rest
    | s => readScalar s

/-- Fields up to the closing brace, after those already read. -/
def readFields : Nat → Entries Json Key → Text → Except Failure (Json × Text)
  | 0, _, s => refuse .name s
  | fuel + 1, done, s =>
    match s with
    | .char '"' :: rest => do
      let (key, rest) ← readString s 0 [] rest
      match skipSpace rest with
      | .char ':' :: rest => do
        let (value, rest) ← readValue fuel (skipSpace rest)
        let done := Entries.put done (.text key) value
        match skipSpace rest with
        | .char '\x7d' :: rest => .ok (.obj done, rest)
        | .char ',' :: rest => readFields fuel done (skipSpace rest)
        | rest => refuse .comma rest
      | rest => refuse .colon rest
    | s => refuse .name s

/-- Items up to the closing bracket, after those already read, which are given from the last to the
    first. -/
def readItems : Nat → List Json → Text → Except Failure (Json × Text)
  | 0, _, s => refuse .value s
  | fuel + 1, done, s => do
    let (value, rest) ← readValue fuel s
    let done := value :: done
    match skipSpace rest with
    | .char ']' :: rest => .ok (.arr done.reverse, rest)
    | .char ',' :: rest => readItems fuel done (skipSpace rest)
    | rest => refuse .comma rest

end

/-- One value at the start of the text, and what follows it. -/
def readStart (s : Text) : Except Failure (Json × Text) := readValue (2 * s.length + 2) s

/-- A text that is one value with white space around it. -/
def parse (s : Text) : Except Failure Json := do
  match s with
  | .char '\uFEFF' :: _ => refuse .byteOrderMark s
  | _ =>
    let (value, rest) ← readStart (skipSpace s)
    match skipSpace rest with
    | [] => return value
    | rest => refuse .extraData rest

end ElementCompiler.Json
