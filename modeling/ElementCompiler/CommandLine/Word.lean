import ElementCompiler.Text.Class
import ElementCompiler.Text.Literal

set_option autoImplicit false

/-!
Words of a command line. A word names an option in full, by an unambiguous beginning of a long
name, or by a short name with more in the same word; an equals sign sets off a value. Numbers below
zero, words with a space and a dash alone are plain words, and so is every word after two dashes
alone.
-/

namespace ElementCompiler.CommandLine

open Text

/-- A spelling of an option, its dashes included. -/
structure Spelling (α : Type) where
  name : Text
  meaning : α
  takesValue : Bool

def Spelling.isLong {α : Type} (o : Spelling α) : Bool := startsWith "--" o.name

inductive Role (α : Type) where
  | plain
  /-- An option, with what the word has beside its name. -/
  | option (o : Spelling α) (attached : Option Text)
  | unknown
  /-- The two dashes that end the options. -/
  | terminator

structure Word (α : Type) where
  text : Text
  role : Role α

/-- The characters before the first equals sign, and what is after it. -/
def splitAtSign (s : Text) : Text × Option Text :=
  match s.dropWhile (· != .char '=') with
  | [] => (s, none)
  | _ :: value => (s.takeWhile (· != .char '='), some value)

/-- A dash and a decimal number; a newline at the end is passed over. -/
def isNegativeNumber : Text → Bool
  | .char '-' :: s =>
    let s := if s.getLast? == some (.char '\n') then s.dropLast else s
    match s.dropWhile (·.is isDecimalDigit) with
    | [] => !s.isEmpty
    | c :: fraction =>
      c == .char '.' && !fraction.isEmpty && fraction.all (·.is isDecimalDigit)
  | _ => false

variable {α : Type}

def named? (options : List (Spelling α)) (name : Text) : Option (Spelling α) :=
  options.find? (·.name == name)

/-- The spellings that a word may stand for when it is none of them in full. -/
def candidates (options : List (Spelling α)) (s : Text) : List (Spelling α × Option Text) :=
  if startsWith "--" s then
    let (lead, attached) := splitAtSign s
    (options.filter fun o => startsWith lead o.name).map fun o => (o, attached)
  else
    (options.filter (·.name == s.take 2)).map fun o => (o, some (s.drop 2))

/-- The role of a word before the options end, unless it is ambiguous. -/
def role? (options : List (Spelling α)) (s : Text) : Option (Role α) :=
  if s.head? != some (.char '-') || s == "-" then some .plain
  else
    let (lead, attached) := splitAtSign s
    match named? options s, (if attached.isSome then named? options lead else none) with
    | some o, _ => some (.option o none)
    | none, some o => some (.option o attached)
    | none, none =>
      match candidates options s with
      | [(o, attached)] => some (.option o attached)
      | _ :: _ :: _ => none
      | [] => some (if isNegativeNumber s || s.contains (.char ' ') then .plain else .unknown)

/-- The words with their roles, unless one of them is ambiguous. -/
def words? (options : List (Spelling α)) : List Text → Option (List (Word α))
  | [] => some []
  | s :: rest =>
    if s = "--" then some (⟨s, .terminator⟩ :: rest.map fun t => ⟨t, .plain⟩)
    else do
      let role ← role? options s
      let rest ← words? options rest
      return ⟨s, role⟩ :: rest

end ElementCompiler.CommandLine
