import ElementCompiler.Component.Basic
import ElementCompiler.Json.Access
import ElementCompiler.Text.Blank

set_option autoImplicit false

/-!
Checking that a component is well formed. The check stops at the first thing that is wrong, node by
node from the root, an else branch before the children.
-/

namespace ElementCompiler

open Text

def isNamed : Json → Bool
  | .str s => !isBlankText s
  | _ => false

/-- Where a node is, as messages show it. -/
def nodePlace (path : Text) (name : Json) : Text :=
  if path.isEmpty then (name.orElse (.str "<root>")).display else path ++ "/" ++ name.display

def malformed {α : Type} (why : Malformation) : Attempt α := .error (.malformed why)

/-- A loop needs the code of its collection. -/
def checkLoop (n : Node) (place : Text) : Attempt Unit :=
  if n.isLoop then
    match n.binding? "each" with
    | none => malformed (.loopWithoutCollection place)
    | some b => do
      let code ← b.code.textOr .missingOperation
      if isBlankText code then malformed (.loopWithoutCollection place) else return ()
  else .ok ()

/-- Every binding needs code that is text. -/
def checkBindings (place : Text) : Entries (Option Binding) → Attempt Unit
  | [] => .ok ()
  | (key, b) :: rest =>
    match b.bind fun b => b.code.text? with
    | none => malformed (.bindingWithoutCode key place)
    | some _ => checkBindings place rest

/-- What a single node needs, the nodes below it apart. -/
def checkOne (path : Text) (n : Node) : Attempt Unit := do
  let place := nodePlace path n.name
  if !isNamed n.name then malformed (.unnamedNode path)
  checkLoop n place
  checkBindings place n.bindings
  match Entries.get? n.properties textKey with
  | some (.str _) | none => pure ()
  | some _ => malformed (.literalNotText place)
  match n.elseBranch, Entries.get? n.metadata (.text elseKey) with
  | none, some j => if j.isNull then return () else malformed (.branchNotNode place)
  | _, _ => return ()

mutual

def checkNode (path : Text) : Node → Attempt Unit
  | ⟨name, properties, bindings, children, scope, elseBranch, metadata⟩ => do
    checkOne path ⟨name, properties, bindings, children, scope, elseBranch, metadata⟩
    checkBranch (nodePlace path name ++ ":else") elseBranch
    checkNodes (nodePlace path name) children

def checkBranch (path : Text) : Option Node → Attempt Unit
  | none => .ok ()
  | some n => checkNode path n

def checkNodes (path : Text) : List Node → Attempt Unit
  | [] => .ok ()
  | n :: rest => do
    checkNode path n
    checkNodes path rest

end

/-- The context entries and imports that have no name or path. -/
def Component.unnamedParts (c : Component) : List Text :=
  let reads := c.context.reads.filterMap fun r =>
    if r.2.name.isGiven then none else some ("context read '" ++ r.1 ++ "'")
  let writes := c.context.writes.zipIdx.filterMap fun w =>
    if w.1.name.isGiven then none else some (Text.ofString "context write #" ++ toString w.2)
  let imports := c.imports.zipIdx.filterMap fun d =>
    if d.1.path.isGiven then none else some (Text.ofString "import #" ++ toString d.2)
  reads ++ writes ++ imports

/-- Refuses a component that is not well formed. -/
def Component.validate (c : Component) : Attempt Unit := do
  if !isNamed c.name then malformed .unnamedComponent
  checkNodes c.name.display c.children
  match c.unnamedParts with
  | [] => return ()
  | parts => malformed (.unnamedParts c.name.display parts)

end ElementCompiler
