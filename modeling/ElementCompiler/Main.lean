import ElementCompiler.CommandLine.Run

set_option autoImplicit false

/-!
The program on the files of the machine it runs on.
-/

namespace ElementCompiler.CommandLine

/-- The problem that an error tells of; its number is given as it is or negated. -/
def problemOf : IO.Error → FileProblem
  | .alreadyExists _ _ _ => .exists
  | .inappropriateType _ code _ =>
    if code = 21 || 0 - code = 21 then .isDirectory else .notDirectory
  | .invalidArgument _ _ _ => .nameTooLong
  | _ => .missing

def attempt {α : Type} (action : IO α) : IO (Except FileProblem α) := do
  try return .ok (← action)
  catch e => return .error (problemOf e)

/-- A path as the machine takes it; the words of a command line have characters only. -/
def machinePath (p : Path) : String := p.text.string?.getD ""

/-- A directory shows itself by the problem of reading it. -/
def readsAsDirectory (p : Path) : IO Bool := do
  match ← attempt (IO.FS.readBinFile (machinePath p)) with
  | .error .isDirectory => return true
  | _ => return false

def machineFiles : FileAccess IO where
  read p := attempt (IO.FS.readBinFile (machinePath p))
  makeDirectory p := attempt (IO.FS.createDir (machinePath p))
  isDirectory := readsAsDirectory
  write p bytes := attempt (IO.FS.writeBinFile (machinePath p) bytes)

end ElementCompiler.CommandLine

open ElementCompiler ElementCompiler.CommandLine in
/-- Runs the program and gives its exit code. -/
def main (words : List String) : IO UInt32 := do
  let exit := match ← run machineFiles (words.map Text.ofString) with
    | .ok exit => exit
    | .error f => told f
  (← IO.getStdout).write (exit.output.utf8?.getD .empty)
  (← IO.getStderr).write (exit.errors.utf8?.getD .empty)
  return exit.code.toUInt32
