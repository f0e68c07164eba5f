import ElementCompiler.Component.Basic
import ElementCompiler.Json.Access
import ElementCompiler.Json.Parser
import ElementCompiler.Text.Lines

set_option autoImplicit false

/-!
Components from JSON. Missing parts take their defaults, and a part that does not count as given is
missing. Code of bindings and state and literal attributes are read as text whatever their kind; an
unknown mode or kind, and an object missing where a component or node is wanted, are refused.
-/

namespace ElementCompiler

namespace Decode

/-- The field, or what stands for it when it does not count as given. -/
def given (key : Text) (default : Json) (j : Json) : Attempt Json :=
  (j.field key).map (·.orElse default)

/-- The code of a hook, if it has any. -/
def hook (j : Json) : Attempt (Option Json) :=
  if !j.isGiven then .ok none
  else do
    let code ← j.field "code"
    return if code.isGiven then some code else none

def stateValue (j : Json) : Attempt StateValue := do
  let kind ← j.fieldD "type" (.str "data")
  match StateKind.all.find? fun k => kind.isText k.text with
  | none => .error (.unknownStateKind kind)
  | some k => return ⟨.str (← j.fieldD "code" (.str "")).display, k⟩

def binding (j : Json) : Attempt Binding := do
  let mode ← j.fieldD "type" (.str "normal")
  match BindingMode.all.find? fun m => mode.isText m.text with
  | none => .error (.unknownBindingMode mode)
  | some m =>
    let code : Json := .str (← j.fieldD "code" (.str "")).display
    let raw ← j.field "rawCode"
    let arguments ← j.field "arguments"
    return ⟨code, if raw.isNull then code else raw, m, arguments⟩

/-- Bindings that are null are left out. -/
def bindings : Entries Json → Attempt (Entries (Option Binding))
  | [] => .ok []
  | (key, j) :: rest =>
    if j.isNull then bindings rest
    else do
      let first ← binding j
      let rest ← bindings rest
      return (key, some first) :: rest

def mapEntries {α : Type} (f : Json → Attempt α) : Entries Json → Attempt (Entries α)
  | [] => .ok []
  | (key, j) :: rest => do
    let first ← f j
    let rest ← mapEntries f rest
    return (key, first) :: rest

/-- What a node says apart from the nodes below it: the raw children and the raw else branch are
    left to be read. -/
structure Outline where
  scope : Json
  metadata : Entries Json Key
  branch : Option Json

def outline (j : Json) : Attempt Outline := do
  let scope ← given "scope" (.obj []) j
  let metadata ← (← given "meta" (.obj []) j).toFields
  match Entries.get? metadata (.text elseKey) with
  | some (.obj fields) =>
    return ⟨scope, Entries.put metadata (.text elseKey) .null, some (.obj fields)⟩
  | _ => return ⟨scope, metadata, none⟩

structure Attributes where
  name : Json
  properties : Entries Json
  bindings : Entries (Option Binding)
  children : List Json

def attributes (j : Json) : Attempt Attributes := do
  let name ← j.fieldD "name" (.str "")
  let properties ← (← given "properties" (.obj []) j).entries
  let bs ← bindings (← (← given "bindings" (.obj []) j).entries)
  let children ← (← given "children" (.arr []) j).items
  return ⟨name, Entries.mapValues (fun v => .str v.display) properties, bs, children⟩

def scope (j : Json) : Attempt Scope := do
  let forName ← j.field "forName"
  let indexName ← j.field "indexName"
  let collectionName ← j.field "collectionName"
  return ⟨forName, indexName, collectionName⟩

/-- One node of a tree that is less than `fuel` levels deep. -/
def nodeWithin : Nat → Json → Attempt Node
  | 0, j => .error (.notANode j.kindName)
  | fuel + 1, j => do
    if !j.isObject then .error (.notANode j.kindName)
    else
      let o ← outline j
      let branch ← o.branch.mapM (nodeWithin fuel)
      let a ← attributes j
      let children ← a.children.mapM (nodeWithin fuel)
      let s ← scope o.scope
      return ⟨a.name, a.properties, a.bindings, children, s, branch, o.metadata⟩

def node (j : Json) : Attempt Node := nodeWithin (j.depth + 1) j

def updateHook (j : Json) : Attempt UpdateHook := do
  let code ← j.fieldD "code" (.str "")
  let deps ← (← given "deps" (.arr []) j).items
  return ⟨code, deps⟩

/-- The hooks; a single update hook may stand without a list, and the last hook has two
    spellings. -/
def hooks (j : Json) : Attempt Hooks := do
  let updates ← given "onUpdate" (.arr []) j
  let onInit ← hook (← j.field "onInit")
  let onMount ← hook (← j.field "onMount")
  let onUpdate ← (← (if updates.isObject then .ok [updates] else updates.items)).mapM updateHook
  let first ← j.field "onUnMount"
  let onUnmount ← hook (← (if first.isGiven then .ok first else j.field "onUnmount"))
  return ⟨onInit, onMount, onUpdate, onUnmount⟩

def contextRead (j : Json) : Attempt ContextRead := do
  let name ← j.fieldD "name" (.str "")
  let path ← j.field "path"
  return ⟨name, path⟩

def contextWrite (j : Json) : Attempt ContextWrite := do
  let name ← j.fieldD "name" (.str "")
  let value ← j.field "value"
  let value ←
    if value.isGiven then do pure (some (← mapEntries stateValue (← value.entries)))
    else pure none
  let ref ← j.field "ref"
  let path ← j.field "path"
  return ⟨name, value, ref, path⟩

/-- Writes are a list, or an object whose keys do not matter. -/
def writeItems (j : Json) : Attempt (List Json) :=
  match j with
  | .obj fields => .ok (Entries.values fields)
  | j => j.items

def context (j : Json) : Attempt ContextSpec := do
  let raw ← given "set" (.arr []) j
  let reads ← mapEntries contextRead (← (← given "get" (.obj []) j).entries)
  let writes ← (← writeItems raw).mapM contextWrite
  return ⟨reads, writes⟩

/-- The code of a default is given in an object or by itself. -/
def defaultProp (j : Json) : Attempt Json :=
  if j.isObject then j.field "code" else .ok (.str j.display)

def refSpec (j : Json) : Attempt RefSpec := do
  let argument ← j.field "argument"
  let typeParameter ← j.field "typeParameter"
  return ⟨argument, typeParameter⟩

def declaredImport (j : Json) : Attempt DeclaredImport := do
  let path ← j.fieldD "path" (.str "")
  let imports ← (← given "imports" (.obj []) j).toFields
  return ⟨path, imports⟩

def localExport (j : Json) : Attempt LocalExport := do
  let code ← j.fieldD "code" (.str "")
  let used ← j.field "usedInLocal"
  let function ← j.field "isFunction"
  return ⟨code, used.isGiven, function.isGiven⟩

def component (j : Json) : Attempt Component := do
  if !j.isObject then .error (.notAComponent j.kindName)
  else
    let hooks ← hooks (← given "hooks" (.obj []) j)
    let context ← context (← given "context" (.obj []) j)
    let props ← given "props" (.arr []) j
    let defaultProps ← mapEntries defaultProp (← (← given "defaultProps" (.obj []) j).entries)
    let typeRef ← j.field "propsTypeRef"
    let name ← j.fieldD "name" (.str "")
    let children ← (← (← given "children" (.arr []) j).items).mapM node
    let state ← mapEntries stateValue (← (← given "state" (.obj []) j).entries)
    let props ← props.items
    let refs ← mapEntries refSpec (← (← given "refs" (.obj []) j).entries)
    let imports ← (← (← given "imports" (.arr []) j).items).mapM declaredImport
    let exports ← mapEntries localExport (← (← given "exports" (.obj []) j).entries)
    let metadata ← (← given "meta" (.obj []) j).toFields
    let types ← (← given "types" (.arr []) j).items
    let css ← j.field "css"
    return {
      name, children, state, props, defaultProps, refs, hooks, context, imports, exports, metadata,
      types, css
      propsTypeRef := if typeRef.isText "any" then .null else typeRef }

end Decode

/-- The node that a value describes. -/
def Node.ofJson (j : Json) : Attempt Node := Decode.node j

/-- The component that a value describes. -/
def Component.ofJson (j : Json) : Attempt Component := Decode.component j

/-- The component that a text describes; `path` is where the text is from. -/
def Component.ofText (path text : Text) : Attempt Component :=
  match Json.parse text with
  | .ok j => Component.ofJson j
  | .error (.refused r) => .error (.notJson path (r.message text))
  | .error (.integerTooLong digits) => .error (.integerTooLong digits)

/-- The component that the bytes of a file describe. -/
def Component.ofBytes (path : Text) (bytes : ByteArray) : Attempt Component :=
  match Text.ofUtf8? bytes with
  | some text => Component.ofText path (Text.unifyBreaks text)
  | none => .error .notUnicode

end ElementCompiler
