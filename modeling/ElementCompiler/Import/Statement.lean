import ElementCompiler.Component.Basic
import ElementCompiler.Json.Access

set_option autoImplicit false

/-!
Declared imports as statements of the module. Sources of components carry the infix `.lite`, which
the path of an import loses together with the extension after it.
-/

namespace ElementCompiler.Import

open Text

/-- Whether a path is that of a component source. A list or object is one when it holds the infix as
    an item or key. -/
def isComponentSource : Json → Attempt Bool
  | .str path => .ok (occursIn ".lite" path)
  | .arr items => .ok (items.any (·.isText ".lite"))
  | .obj fields => .ok (Entries.has fields (.text ".lite"))
  | _ => .error .wrongKind

/-- The end of a text, or the newline that ends it. -/
def atEnd (s : Text) : Bool := s.isEmpty || s == "\n"

/-- What follows the suffix of a component source when it begins here: `.lite`, perhaps an extension
    of ASCII letters, and the end. -/
def afterSuffix? (s : Text) : Option Text := do
  let rest ← after? ".lite" s
  match rest with
  | .char '.' :: c :: more =>
    let tail := (c :: more).dropWhile (·.is Char.isAlpha)
    if c.is Char.isAlpha && atEnd tail then some tail else none
  | rest => if atEnd rest then some rest else none

def dropSuffix : Text → Text
  | [] => []
  | c :: cs =>
    match afterSuffix? (c :: cs) with
    | some rest => rest
    | none => c :: dropSuffix cs

/-- The path to import from: that of a component source without its suffix, unless extensions are
    kept. -/
def transformPath (path : Json) (keepExtensions : Bool) : Attempt Json := do
  if keepExtensions then return path
  else if ← isComponentSource path then
    return .str (dropSuffix (← path.textOr .wrongKind))
  else return path

def isStar (kind : Json) : Bool := kind.isText "*"

def isDefault (kind : Json) : Bool := kind.isText "default"

/-- The clause of a named import. An export that is imported under its own name is written alone,
    and then it has to be text. -/
def namedClause (localName : Key) (kind : Json) : Attempt Text :=
  if kind.equals (.ofKey localName) then kind.textOr .wrongKind
  else .ok (kind.display ++ " as " ++ localName.display)

/-- The named imports in braces, if there are any. -/
def namedClauses (imports : Entries Json Key) : Attempt (List Text) := do
  let named ← (imports.filter fun e => !isDefault e.2 && !isStar e.2).mapM fun e =>
    namedClause e.1 e.2
  return if named.isEmpty then [] else ["\x7b " ++ join ", " named ++ " \x7d"]

/-- The clauses between `import` and `from`: the first default name, the first namespace, all named
    imports. -/
def clauses (imports : Entries Json Key) : Attempt (List Text) := do
  let named ← namedClauses imports
  let default ← ((Entries.keys (imports.filter fun e => isDefault e.2)).take 1).mapM fun name =>
    (Json.ofKey name).textOr .wrongKind
  let star := ((Entries.keys (imports.filter fun e => isStar e.2)).take 1).map fun name =>
    Text.ofString "* as " ++ name.display
  return default ++ star ++ named

/-- The import statement of the module, from the given path. -/
def statement (imports : Entries Json Key) (target : Json) : Attempt Text := do
  match ← clauses imports with
  | [] => return "import '" ++ target.display ++ "';"
  | cs => return "import " ++ join ", " cs ++ " from '" ++ target.display ++ "';"

end ElementCompiler.Import
