import ElementCompiler.Fault

set_option autoImplicit false

/-!
The generations of the target framework and the conventions of their templates.
-/

namespace ElementCompiler

inductive TargetVersion where
  | v1
  | v2
  deriving DecidableEq, Repr

namespace TargetVersion

def text : TargetVersion → Text
  | .v1 => "1"
  | .v2 => "2"

def all : List TargetVersion := [.v1, .v2]

/-- The version whose number the value shows as. -/
def parse (value : Json) : Attempt TargetVersion :=
  match all.find? fun v => v.text == value.display with
  | some v => .ok v
  | none => .error (.unknownTargetVersion value)

/-- The version that a value is, taken as it stands. -/
def ofRaw (value : Json) : Attempt TargetVersion :=
  match all.find? fun v => value.isText v.text with
  | some v => .ok v
  | none =>
    match value with
    | .arr _ | .obj _ => .error .wrongKind
    | value => .error (.unhandledVersion value)

/-- The tag by which a template imports an element. -/
def importKeyword : TargetVersion → Text
  | .v1 => "require"
  | .v2 => "import"

/-- Whether the view stands inside a template tag. -/
def wrapsView : TargetVersion → Bool
  | .v1 => true
  | .v2 => false

end TargetVersion
end ElementCompiler
