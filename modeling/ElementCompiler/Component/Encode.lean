import ElementCompiler.Component.Basic
import ElementCompiler.Fault
import ElementCompiler.Json.Printer

set_option autoImplicit false

/-!
Components as JSON. The fields of a component and of a node are all written, in a fixed order;
inside a binding, scope, hook set, ref or context entry what is null is left out, and raw code that
equals the code is not repeated.
-/

namespace ElementCompiler

namespace Encode

/-- An object of the fields that are not null. -/
def sparse (fields : Entries Json) : Json := .object (fields.filter fun f => !f.2.isNull)

def binding (b : Binding) : Json :=
  sparse [
    ("code", b.code),
    ("rawCode", if b.rawCode.equals b.code then .null else b.rawCode),
    ("type", .str b.mode.text),
    ("arguments", b.arguments)]

def scope (s : Scope) : Json :=
  sparse [
    ("forName", s.forName), ("indexName", s.indexName), ("collectionName", s.collectionName)]

/-- The bindings; one that has been taken away cannot be written. -/
def bindings : Entries (Option Binding) → Attempt (Entries Json)
  | [] => .ok []
  | (key, some b) :: rest => (bindings rest).map ((key, binding b) :: ·)
  | (_, none) :: _ => .error .missingOperation

def stateValue (v : StateValue) : Json := .object [("code", v.code), ("type", .str v.kind.text)]

def state (es : Entries StateValue) : Json := .object (Entries.mapValues stateValue es)

def updateHook (u : UpdateHook) : Json := .object [("code", u.code), ("deps", .arr u.deps)]

def hook : Option Json → Json
  | some code => .object [("code", code)]
  | none => .null

def hooks (h : Hooks) : Json :=
  sparse [
    ("onInit", hook h.onInit), ("onMount", hook h.onMount),
    ("onUpdate", .arr (h.onUpdate.map updateHook)), ("onUnMount", hook h.onUnmount)]

def contextRead (r : ContextRead) : Json := sparse [("name", r.name), ("path", r.path)]

def contextWrite (w : ContextWrite) : Json :=
  sparse [
    ("name", w.name),
    ("value", match w.value with
      | some (v :: vs) => state (v :: vs)
      | _ => .null),
    ("ref", w.ref), ("path", w.path)]

def context (c : ContextSpec) : Json :=
  .object [
    ("get", .object (Entries.mapValues contextRead c.reads)),
    ("set", .arr (c.writes.map contextWrite))]

def defaultProp (code : Json) : Json := .object [("code", code)]

def refSpec (r : RefSpec) : Json :=
  sparse [("argument", r.argument), ("typeParameter", r.typeParameter)]

def declaredImport (d : DeclaredImport) : Json :=
  .object [("path", d.path), ("imports", .obj d.imports)]

def localExport (e : LocalExport) : Json :=
  .object [("code", e.code), ("usedInLocal", .bool e.usedInLocal),
    ("isFunction", .bool e.isFunction)]

end Encode

mutual

/-- The value that describes the node. -/
def Node.toJson : Node → Attempt Json
  | ⟨name, properties, bindings, children, scope, elseBranch, metadata⟩ => do
    let metadata ← withBranch metadata elseBranch
    let bindings ← Encode.bindings bindings
    let children ← toJsons children
    return .object [
      ("name", name), ("properties", .object properties), ("bindings", .object bindings),
      ("children", .arr children), ("scope", Encode.scope scope), ("meta", .obj metadata)]

def withBranch (metadata : Entries Json Key) : Option Node → Attempt (Entries Json Key)
  | none => .ok metadata
  | some n => n.toJson.map fun j => Entries.put metadata (.text elseKey) j

def toJsons : List Node → Attempt (List Json)
  | [] => .ok []
  | n :: rest => do
    let first ← n.toJson
    let rest ← toJsons rest
    return first :: rest

end

/-- The value that describes the component. -/
def Component.toJson (c : Component) : Attempt Json := do
  let children ← toJsons c.children
  return .object [
    ("name", c.name), ("children", .arr children), ("state", Encode.state c.state),
    ("props", .arr c.props), ("propsTypeRef", c.propsTypeRef),
    ("defaultProps", .object (Entries.mapValues Encode.defaultProp c.defaultProps)),
    ("refs", .object (Entries.mapValues Encode.refSpec c.refs)), ("hooks", Encode.hooks c.hooks),
    ("context", Encode.context c.context), ("imports", .arr (c.imports.map Encode.declaredImport)),
    ("exports", .object (Entries.mapValues Encode.localExport c.exports)),
    ("meta", .obj c.metadata), ("types", .arr c.types), ("css", c.css)]

/-- The component as an indented document. -/
def Component.document (c : Component) : Attempt Text :=
  c.toJson.map (Json.print .document)

end ElementCompiler
