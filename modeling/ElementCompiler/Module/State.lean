import ElementCompiler.Component.Basic
import ElementCompiler.Json.Access

set_option autoImplicit false

/-!
State as members of a class and as an object literal. Methods and getters carry their own
signature, other entries are written with their name.
-/

namespace ElementCompiler.Module

open Text

/-- What is done to the code of a state entry before it is written. -/
abbrev CodeMapper := Json → Attempt Json

/-- The entry with the text between its name and its code, and the text after it. -/
def stateMember (mapper : CodeMapper) (between after : Text) (name : Text) (v : StateValue) :
    Attempt Json := do
  let code ← mapper v.code
  return if v.kind.isSelfNamed then code else .str (name ++ between ++ code.display ++ after)

def stateMembers (mapper : CodeMapper) (between after : Text) :
    Entries StateValue → Attempt (List Json)
  | [] => .ok []
  | (name, v) :: rest => do
    let first ← stateMember mapper between after name v
    return first :: (← stateMembers mapper between after rest)

/-- The members one after the other; each has to be text. -/
def joinMembers (sep : Text) (members : List Json) : Attempt Text := do
  return join sep (← members.mapM (Json.textOr .wrongKind))

/-- The state as fields, methods and getters of a class. -/
def classMembers (mapper : CodeMapper) (state : Entries StateValue) : Attempt Text := do
  joinMembers "\n" (← stateMembers mapper " = " ";" state)

/-- The state as an object literal. -/
def objectLiteral (mapper : CodeMapper) (state : Entries StateValue) : Attempt Text := do
  let members ← stateMembers mapper ": " "" state
  if members.isEmpty then return "\x7b\x7d"
  else return "\x7b\n" ++ (← joinMembers ",\n" members) ++ "\n\x7d"

end ElementCompiler.Module
