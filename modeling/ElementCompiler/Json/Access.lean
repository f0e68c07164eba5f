import ElementCompiler.Fault

set_option autoImplicit false

/-!
Taking values apart that may have any shape. A value that is not an object has no fields, and a
value that is no list, text or object has no items.
-/

namespace ElementCompiler.Json

/-- The field of an object, if it has it. -/
def field? (key : Text) : Json → Attempt (Option Json)
  | .obj fields => .ok (Entries.get? fields (.text key))
  | _ => .error .missingOperation

/-- The field of an object, or the default. -/
def fieldD (key : Text) (j default : Json) : Attempt Json :=
  (j.field? key).map (·.getD default)

/-- The field of an object, null when it is missing. -/
def field (key : Text) (j : Json) : Attempt Json := j.fieldD key .null

/-- The fields of an object whose keys are texts. -/
def entries : Json → Attempt (Entries Json)
  | .obj fields =>
    fields.mapM fun f =>
      match f.1.text? with
      | some key => .ok (key, f.2)
      | none => .error .wrongKind
  | _ => .error .missingOperation

/-- The items of a list, the characters of a text, the keys of an object. -/
def items? : Json → Option (List Json)
  | .arr items => some items
  | .str s => some (s.map fun c => .str [c])
  | .obj fields => some (fields.map fun f => ofKey f.1)
  | _ => none

def items (j : Json) : Attempt (List Json) :=
  match j.items? with
  | some items => .ok items
  | none => .error .wrongKind

/-- The key that a value is; a list or object is refused. -/
def asKey (j : Json) : Attempt Key :=
  match j.key? with
  | some key => .ok key
  | none => .error .wrongKind

def pairsFrom : Nat → Entries Json Key → List Json → Attempt (Entries Json Key)
  | _, done, [] => .ok done
  | index, done, j :: rest =>
    match j.items? with
    | none => .error .wrongKind
    | some [k, v] => do
      let key ← k.asKey
      pairsFrom (index + 1) (Entries.put done key v) rest
    | some items => .error (.notAPair index items.length)

/-- The fields of an object, or of an object given as a list of pairs. -/
def toFields (j : Json) : Attempt (Entries Json Key) :=
  match j with
  | .obj fields => .ok fields
  | j => do pairsFrom 0 [] (← j.items)

/-- The text of a string value; anything else is the given fault. -/
def textOr (fault : Fault) : Json → Attempt Text
  | .str s => .ok s
  | _ => .error fault

@[simp] theorem textOr_str (fault : Fault) (s : Text) : textOr fault (.str s) = .ok s := rfl

end ElementCompiler.Json
