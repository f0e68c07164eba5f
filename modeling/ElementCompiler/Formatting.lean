import ElementCompiler.Plugin
import ElementCompiler.Target

set_option autoImplicit false

/-!
What a compilation reports while it runs, and best-effort formatting. A formatter may fail or return
something that is no text; then the source stays as it is and a warning says why.
-/

namespace ElementCompiler

inductive LogEvent where
  | suppressed (component : Json)
  | generating (version : TargetVersion) (component : Json)
  | running (count : Nat) (stage : Stage)
  | classified (customElements codeImports classFields : Nat)
  | formattingFailed (parser problem : Text)
  | formatterReturned (kind : Text)

namespace LogEvent

def isWarning : LogEvent → Bool
  | .formattingFailed _ _ | .formatterReturned _ => true
  | _ => false

/-- The part of the compiler that reports. -/
def source : LogEvent → Text
  | .suppressed _ | .generating _ _ => "polyview.codegen.aurelia.generator"
  | .running _ _ => "polyview.ir.plugins"
  | .classified _ _ _ => "polyview.codegen.imports"
  | .formattingFailed _ _ | .formatterReturned _ => "polyview.codegen.formatting"

def message : LogEvent → Text
  | .suppressed component => "Generation suppressed for component " ++ component.display
  | .generating version component =>
    "Generating Aurelia v" ++ version.text ++ " component " ++ component.display
  | .running count stage =>
    "Running " ++ toString count ++ " " ++ stage.text ++ " transform(s)"
  | .classified customElements codeImports classFields =>
    "Classified imports: " ++ toString customElements ++ " custom element(s), " ++
      toString codeImports ++ " code import(s), " ++ toString classFields ++ " class field(s)"
  | .formattingFailed parser problem =>
    "Could not format generated " ++ parser ++ " source: " ++ problem
  | .formatterReturned kind =>
    "Formatter returned " ++ kind ++ " instead of text; keeping unformatted source"

def level (e : LogEvent) : Text := if e.isWarning then "WARNING" else "DEBUG"

/-- The whole record on one line. -/
def line (e : LogEvent) : Text := e.level ++ " " ++ e.source ++ ": " ++ e.message

end LogEvent

/-- A formatter takes the source and the name of a parser. -/
abbrev Formatter := (source : Text) → (parser : Text) → Attempt Json

def typescriptParser : Text := "typescript"

/-- The line by which the formatting service names the settings it was called with. -/
def formattedBanner : Text :=
  "// formatted indent_size=2 preserve_newlines=true max_preserve_newlines=2 " ++
    "end_with_newline=false\n"

/-- The default formatter; it knows one parser. -/
def beautify (source parser : Text) : Attempt Text :=
  if parser = typescriptParser then .ok (formattedBanner ++ source)
  else .error (.unknownParser parser)

/-- The formatted source, or the source itself with a warning. -/
def tryFormat (formatter : Option Formatter) (source parser : Text) : Text × List LogEvent :=
  let formatted := match formatter with
    | some f => f source parser
    | none => (beautify source parser).map Json.str
  match formatted with
  | .ok (.str text) => (text, [])
  | .ok other => (source, [.formatterReturned other.kindName])
  | .error fault => (source, [.formattingFailed parser fault.report.message])

end ElementCompiler
