import ElementCompiler.Entries
import ElementCompiler.Json.Key

set_option autoImplicit false

/-!
JSON values. Objects keep the order of their keys, and whole numbers are apart from numbers that
were written with a fraction or an exponent.
-/

namespace ElementCompiler

inductive Json where
  | null
  | bool (b : Bool)
  | int (n : Int)
  | float (x : Float)
  | str (s : Text)
  | arr (items : List Json)
  | obj (fields : List (Key × Json))
  deriving Inhabited

namespace Json

/-- Whether a value counts as given: null, false, zero and whatever is empty do not. -/
def isGiven : Json → Bool
  | .null => false
  | .bool b => b
  | .int n => n != 0
  | .float x => !Double.isZero x
  | .str s => !s.isEmpty
  | .arr items => !items.isEmpty
  | .obj fields => !fields.isEmpty

/-- The value, or the default when it does not count as given. -/
def orElse (j default : Json) : Json := if j.isGiven then j else default

def isNull : Json → Bool
  | .null => true
  | _ => false

def isObject : Json → Bool
  | .obj _ => true
  | _ => false

/-- The text of a string value. -/
def text? : Json → Option Text
  | .str s => some s
  | _ => none

/-- Whether the value is this very text. -/
def isText (j : Json) (s : Text) : Bool :=
  match j with
  | .str t => t == s
  | _ => false

def nonEmptyText? : Json → Option Text
  | .str s => if s.isEmpty then none else some s
  | _ => none

/-- A key as a value. -/
def ofKey : Key → Json
  | .null => .null
  | .bool b => .bool b
  | .int n => .int n
  | .float x => .float x
  | .text s => .str s

/-- The key that a value is; lists and objects are no keys. -/
def key? : Json → Option Key
  | .null => some .null
  | .bool b => some (.bool b)
  | .int n => some (.int n)
  | .float x => some (.float x)
  | .str s => some (.text s)
  | .arr _ | .obj _ => none

/-- Whether a value can be a key, or an element of a set. -/
def isKey (j : Json) : Bool := j.key?.isSome

/-- An object with texts for keys. -/
def object (fields : Entries Json) : Json := .obj (fields.map fun f => (.text f.1, f.2))

@[simp] theorem key?_ofKey (k : Key) : (ofKey k).key? = some k := by cases k <;> rfl

mutual

/-- Equality of values, where truth values and both kinds of number compare as numbers and objects
    compare without regard to order. A number that is none equals itself. -/
def same : Json → Json → Bool
  | .arr xs, .arr ys => sameItems xs ys
  | .obj xs, .obj ys => xs.length == ys.length && sameFields xs ys
  | j, k =>
    match j.key?, k.key? with
    | some j, some k => j == k
    | _, _ => false

def sameItems : List Json → List Json → Bool
  | [], [] => true
  | x :: xs, y :: ys => same x y && sameItems xs ys
  | _, _ => false

def sameFields : List (Key × Json) → List (Key × Json) → Bool
  | [], _ => true
  | (k, v) :: rest, ys =>
    (match Entries.get? ys k with
      | some w => same v w
      | none => false) && sameFields rest ys

end

/-- Equality of two values by themselves: a number that is none equals nothing. -/
def equals (j k : Json) : Bool :=
  j.same k && match j with
    | .float x => !Double.isNoNumber x
    | _ => true

mutual

/-- How deep lists and objects are nested. -/
def depth : Json → Nat
  | .arr items => depthItems items + 1
  | .obj fields => depthFields fields + 1
  | _ => 0

def depthItems : List Json → Nat
  | [] => 0
  | j :: rest => max (depth j) (depthItems rest)

def depthFields : List (Key × Json) → Nat
  | [] => 0
  | (_, j) :: rest => max (depth j) (depthFields rest)

end

/-- The values in order, each kept only where it first occurs. -/
def distinct (xs : List Json) : List Json :=
  xs.foldl (fun seen x => if seen.any (same x) then seen else seen ++ [x]) []

end Json
end ElementCompiler
