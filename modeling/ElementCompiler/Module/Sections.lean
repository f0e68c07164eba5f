import ElementCompiler.Module.ContextBridge
import ElementCompiler.Module.Members
import ElementCompiler.Module.View

set_option autoImplicit false

/-!
The sections of a class body, in their order: bindable props, imports shown to the view, outputs,
refs of elements, refs of values, state, constructor, lifecycle methods, context methods. An empty
section is left out.
-/

namespace ElementCompiler.Module

open Text

/-- Whether a type reference is a union or an intersection. -/
def isCompoundType : Json → Attempt Bool
  | .str s => .ok (occursIn "|" s || occursIn "&" s)
  | .arr items => .ok (items.any fun j => j.isText "|" || j.isText "&")
  | .obj fields => .ok (Entries.has fields (.text "|") || Entries.has fields (.text "&"))
  | _ => .error .wrongKind

/-- The type of a prop: that of the field in the type of all props, if that is known. -/
def propType (typeRef : Json) (prop : Text) : Attempt Text := do
  if typeRef.isGiven && !typeRef.isText "any" then
    let compound ← isCompoundType typeRef
    let text := if compound then "(" ++ typeRef.display ++ ")" else typeRef.display
    return text ++ "[\"" ++ prop ++ "\"]"
  else return "any"

def propDeclaration (c : Component) (prop : Text) : Attempt Text := do
  let type ← propType c.propsTypeRef prop
  let default : Text :=
    if Entries.has c.defaultProps prop then " = defaultProps[\"" ++ prop ++ "\"]" else ""
  return "@bindable() " ++ prop ++ ": " ++ type ++ default ++ ";"

def valueRefDeclaration (c : Component) (mapper : CodeMapper) (name : Text) :
    Attempt Text := do
  match Entries.get? c.refs name with
  | none => .error .missingKey
  | some spec =>
    let type : Text := if spec.typeParameter.isGiven then ": " ++ spec.typeParameter.display else ""
    let initial : Text ←
      if spec.argument.isGiven then do pure (" = " ++ (← mapper spec.argument).display)
      else pure []
    return "private _" ++ name ++ type ++ initial ++ ";"

def bracedBlock (head body : Text) : Text :=
  head ++ " \x7b\n" ++ indentBlock 2 body ++ "\n\x7d"

def constructorSection (c : Component) (injectables : List Text) (bridge : ContextBridge) :
    Attempt Text := do
  if injectables.isEmpty && c.hooks.onInit.isNone && !bridge.hasWrites then return ""
  else
    let aggregator : List Text :=
      if bridge.hasWrites then ["private eventAggregator: EventAggregator"] else []
    let parameters := aggregator ++ injectables
    let signature : Text :=
      if parameters.isEmpty then "constructor()"
      else "constructor(\n" ++ indentBlock 2 (join ",\n" parameters) ++ "\n)"
    match c.hooks.onInit with
    | none => return signature ++ " \x7b\x7d"
    | some code => return bracedBlock signature (← code.textOr .missingOperation)

/-- The parts of a body that count as given; each has to be text. -/
def bodyParts (parts : List Json) : Attempt Text := do
  return join "\n" (← (parts.filter Json.isGiven).mapM (Json.textOr .wrongKind))

def attachedSection (c : Component) (bridge : ContextBridge) : Attempt Text := do
  if c.hooks.onMount.isNone && !bridge.hasReads && !bridge.hasWrites then return ""
  else
    let body ← bodyParts (c.hooks.onMount.toList ++ [.str bridge.mountCalls])
    return bracedBlock "attached()" body

/-- The names that all updates together depend on. -/
def observedNames (updates : List UpdateHook) : Attempt Text := do
  let deps := updates.flatMap UpdateHook.deps
  if deps.all Json.isKey then
    return join ", " ((Json.distinct deps).map fun d => Text.ofString "\"" ++ d.display ++ "\"")
  else .error .wrongKind

def observerSection (c : Component) : Attempt Text := do
  match c.hooks.onUpdate with
  | [] => return ""
  | updates =>
    let observed ← observedNames updates
    let codes ← updates.mapM fun u => u.code.textOr .wrongKind
    return "@computedFrom(" ++ observed ++ ")\n" ++
      bracedBlock ("get " ++ observerName ++ "()") (join "\n" codes ++ "\nreturn;")

def detachedSection (c : Component) : Attempt Text :=
  match c.hooks.onUnmount with
  | none => .ok ""
  | some code => do return bracedBlock "detached()" (← code.textOr .missingOperation)

/-- What the sections are made of beside the component itself. -/
structure SectionParts where
  members : Members
  bindableProps : List Text
  assignedImports : List Key
  outputs : List Text
  valueRefs : List Text
  injectables : List Text
  bridge : ContextBridge

def sections (c : Component) (p : SectionParts) : Attempt (List Text) := do
  let mapper := p.members.classCode
  let props ← p.bindableProps.mapM (propDeclaration c)
  let valueRefs ← p.valueRefs.mapM (valueRefDeclaration c mapper)
  let state ← classMembers mapper c.state
  let construct ← constructorSection c p.injectables p.bridge
  let attached ← attachedSection c p.bridge
  let observer ← observerSection c
  let detached ← detachedSection c
  let all := [
    join "\n" props,
    join "\n" (p.assignedImports.map fun name => name.display ++ " = " ++ name.display ++ ";"),
    join "\n" (p.outputs.map fun output => output ++ ";"),
    join "\n" (p.members.domRefs.map fun name => name ++ ": HTMLElement;"),
    join "\n" valueRefs, state, construct, attached, observer, detached,
    p.bridge.readMethod, p.bridge.writeMethod]
  return all.filter fun s => !s.isEmpty

end ElementCompiler.Module
