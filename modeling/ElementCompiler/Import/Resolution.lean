import ElementCompiler.Component.Names
import ElementCompiler.Import.Channel
import ElementCompiler.Import.Statement

set_option autoImplicit false

/-!
Resolving declared imports. Each import is put on the channel by a mapper, as flat code or as a
record; the local exports come last. Without a mapper the statement itself is put there.
-/

namespace ElementCompiler.Import

open Text

/-- What puts an import on the channel: given the component, the import, its statement, the
    components used as tags and the path to import from. -/
abbrev Mapper :=
  Component → DeclaredImport → (statement : Text) → (used : List Text) → (path : Json) →
    Attempt Text

/-- A name made of the last part of a path, where runs of other characters become low lines. -/
def underscored : (inRun : Bool) → Text → Text
  | _, [] => []
  | inRun, c :: cs =>
    if c.is isWord then c :: underscored false cs
    else if inRun then underscored true cs
    else '_' :: underscored true cs

def lastPart (path : Text) : Text := (path.reverse.takeWhile (· != .char '/')).reverse

/-- The canonical name of an import: its first default name, else its first name, else one made of
    its path. -/
def canonicalName (d : DeclaredImport) (path : Json) : Attempt Json :=
  match d.defaultNames ++ Entries.keys d.imports with
  | name :: _ => .ok (.ofKey name)
  | [] => do
    let stem := underscored false (lastPart (← path.textOr .missingOperation))
    return .str (if stem.isEmpty then "module" else stem)

/-- The mapper that writes a record for every import. -/
def structuredMapper : Mapper := fun _ d statement _ path => do
  let name ← canonicalName d path
  return RecordDraft.encode ⟨name, path, .str [], statement, d.imports⟩

/-- The code of the local exports that no import provides. -/
def exportsCode (c : Component) : Attempt Text := do
  let imported := c.imports.flatMap fun d => Entries.keys d.imports
  let exports := c.exports.filter fun e => !imported.contains (.text e.1)
  return join "\n" (← exports.mapM fun e => e.2.code.textOr .wrongKind)

/-- How declared imports are resolved. -/
structure Settings where
  mapper : Option Mapper
  keepComponentImports : Bool
  keepExtensions : Bool

def resolveOne (s : Settings) (c : Component) (used : List Text) (d : DeclaredImport) :
    Attempt (Option Text) := do
  let dropped ← if s.keepComponentImports then pure false else isComponentSource d.path
  if dropped then return none
  else
    let path ← transformPath d.path s.keepExtensions
    let statement ← statement d.imports path
    match s.mapper with
    | some mapper => return some (← mapper c d statement used path)
    | none => return some statement

/-- The text of the channel: what the imports are put there as, and then the local exports. -/
def resolve (s : Settings) (c : Component) (used : List Text) : Attempt Text := do
  let pieces ← c.imports.mapM (resolveOne s c used)
  let exports ← exportsCode c
  return join "\n" (pieces.filterMap id ++ (if exports.isEmpty then [] else [exports]))

end ElementCompiler.Import
