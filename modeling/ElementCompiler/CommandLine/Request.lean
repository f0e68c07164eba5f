import ElementCompiler.CommandLine.Grammar
import ElementCompiler.Target
import ElementCompiler.Text.Literal

set_option autoImplicit false

/-!
What the command line asks for: one command, `compile`, on one file. The pages of help show the usage
first, then the operands and the options with a word on each of them.
-/

namespace ElementCompiler.CommandLine

/-- A page of lines, each of them ended by a newline. -/
def page (lines : List String) : Text := lines.flatMap fun line => Text.ofString line ++ "\n"

def programHelp : Text := page [
  "usage: polyview [-h] [--version] \x7bcompile\x7d ...",
  "",
  "Compile component IR into framework source code",
  "",
  "positional arguments:",
  "  \x7bcompile\x7d",
  "    compile   Compile a component IR JSON file",
  "",
  "options:",
  "  -h, --help  show this help message and exit",
  "  --version   show program's version number and exit"]

def compileHelp : Text := page [
  "usage: polyview compile [-h] [--target-version \x7b1,2\x7d] [--no-format]",
  "                        [--template-only] [-o OUTPUT]",
  "                        [--log-level \x7bdebug,error,info,warn,warning\x7d]",
  "                        file",
  "",
  "positional arguments:",
  "  file                  Path to the serialized component",
  "",
  "options:",
  "  -h, --help            show this help message and exit",
  "  --target-version \x7b1,2\x7d",
  "                        Aurelia generation to target (default: 1)",
  "  --no-format           Skip the formatting stage",
  "  --template-only       Render only the view markup of the component tree",
  "  -o OUTPUT, --output OUTPUT",
  "                        Write output to this file instead of stdout",
  "  --log-level \x7bdebug,error,info,warn,warning\x7d",
  "                        Logging verbosity (default: warning)"]

/-- A compilation that is asked for. The log level is checked and has no effect on the result. An
    option that was given without a value leaves none. -/
structure Request where
  file : Text
  targetVersion : Option TargetVersion
  format : Bool
  templateOnly : Bool
  output : Option Text
  logLevel : Option Text
  deriving DecidableEq, Repr

def Request.initial : Request := ⟨[], some .v1, true, false, none, some "warning"⟩

inductive CompileOption where
  | help
  | targetVersion
  | noFormat
  | templateOnly
  | output
  | logLevel
  deriving DecidableEq, Repr

inductive ProgramOption where
  | help
  | version
  deriving DecidableEq, Repr

def logLevels : List Text := ["debug", "error", "info", "warn", "warning"]

def flag {α : Type} (name : Text) (meaning : α) : Spelling α := ⟨name, meaning, false⟩

def valued {α : Type} (name : Text) (meaning : α) : Spelling α := ⟨name, meaning, true⟩

def CompileOption.apply : CompileOption → Option Text → Request → Except Halt Request
  | .help, _, _ => .error (.help compileHelp)
  | .targetVersion, none, r => .ok { r with targetVersion := none }
  | .targetVersion, some value, r =>
    match TargetVersion.all.find? fun v => v.text == value with
    | some v => .ok { r with targetVersion := some v }
    | none => .error .rejected
  | .noFormat, _, r => .ok { r with format := false }
  | .templateOnly, _, r => .ok { r with templateOnly := true }
  | .output, value, r => .ok { r with output := value }
  | .logLevel, none, r => .ok { r with logLevel := none }
  | .logLevel, some value, r =>
    if logLevels.contains value then .ok { r with logLevel := some value } else .error .rejected

def compileGrammar : Grammar CompileOption Request where
  options := [flag "-h" .help, flag "--help" .help, valued "--target-version" .targetVersion,
    flag "--no-format" .noFormat, flag "--template-only" .templateOnly, valued "-o" .output,
    valued "--output" .output, valued "--log-level" .logLevel]
  takesRest := false
  applyOption := CompileOption.apply
  applyOperand file _ r := .ok { r with file }

/-- The options of the program itself stand before the command; what follows the command belongs to
    it. -/
def programGrammar : Grammar ProgramOption Request where
  options := [flag "-h" .help, flag "--help" .help, flag "--version" .version]
  takesRest := true
  applyOption
    | .help, _, _ => .error (.help programHelp)
    | .version, _, _ => .error .version
  applyOperand command rest r :=
    if command = "compile" then compileGrammar.read rest r else .error .rejected

/-- The request that the words after the program's name make. -/
def Request.ofWords (words : List Text) : Except Halt Request :=
  programGrammar.read words .initial

end ElementCompiler.CommandLine
