import ElementCompiler.CommandLine.Files
import ElementCompiler.CommandLine.Request
import ElementCompiler.Component.Decode
import ElementCompiler.Module.Compile

set_option autoImplicit false

/-!
Running the program: read the component, compile it or render its view, and show the text or write
it to a file. Faults of components, options and files are told in one line; other faults are left
to the caller.
-/

namespace ElementCompiler.CommandLine

/-- What the program leaves: its exit code and what it shows. -/
structure Exit where
  code : Nat
  output : Text
  errors : Text
  deriving DecidableEq, Repr

def versionLine : Text := "polyview 0.1.0\n"

def Halt.exit : Halt → Exit
  | .help page => ⟨0, page, []⟩
  | .version => ⟨0, versionLine, []⟩
  | .rejected => ⟨2, [], []⟩

/-- Faults that the program tells in one line. -/
def isTold (f : Fault) : Bool :=
  let category := f.report.category
  category.code?.isSome || category = .file

def told (f : Fault) : Exit := ⟨1, [], "Error: " ++ f.report.line ++ "\n"⟩

/-- The children of a component as one node. -/
def fragmentOf (c : Component) : Node :=
  ⟨.str "Fragment", [], [], c.children, .empty, none, []⟩

/-- The options of the compilation; a version that was given without a value is none. -/
def Request.options (r : Request) : Attempt CompileOptions :=
  match r.targetVersion with
  | some v => .ok { CompileOptions.default with targetVersion := v, format := .bool r.format }
  | none => .error (.unknownTargetVersion (.arr []))

/-- The text that is asked for. -/
def Request.render (r : Request) (c : Component) : Attempt Text :=
  if r.templateOnly then (Markup.renderNode .start (fragmentOf c)).map (·.text)
  else do return (← Module.compile (← r.options) c).text

def withNewline (text : Text) : Text :=
  if Text.endsWith "\n" text then text else text ++ "\n"

variable {m : Type → Type} [Monad m]

/-- Writes the text to the file that is asked for; what is left to show. -/
def deliver (files : FileAccess m) (output : Option Text) (text : Text) :
    ExceptT Fault m Text := do
  match output with
  | none | some [] => return withNewline text
  | some name =>
    let path := Path.ofText name
    files.makeDirectories path.parent
    files.writeFile path text
    return []

/-- Does what is asked for; what is to be shown. -/
def Request.perform (files : FileAccess m) (r : Request) : ExceptT Fault m Text := do
  let path := Path.ofText r.file
  let bytes ← files.readFile path
  let component ← ExceptT.mk (pure (Component.ofBytes path.text bytes))
  let text ← ExceptT.mk (pure (r.render component))
  deliver files r.output text

def run (files : FileAccess m) (words : List Text) : m (Attempt Exit) := do
  match Request.ofWords words with
  | .error halt => return .ok halt.exit
  | .ok request =>
    if request.logLevel.isNone then return .error .missingOperation
    else match ← (request.perform files).run with
      | .ok shown => return .ok ⟨0, shown, []⟩
      | .error f => return if isTold f then .ok (told f) else .error f

end ElementCompiler.CommandLine
