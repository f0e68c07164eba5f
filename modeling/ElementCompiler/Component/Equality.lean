import ElementCompiler.Component.Basic

set_option autoImplicit false

/-!
Equality of components. A snapshot is the value that holds every field of a component, whatever is
null included, so two components are the same when their snapshots are the same values.
-/

namespace ElementCompiler

namespace Snapshot

def binding : Option Binding → Json
  | none => .null
  | some b => .arr [b.code, b.rawCode, .str b.mode.text, b.arguments]

def scope (s : Scope) : Json := .arr [s.forName, s.indexName, s.collectionName]

def state (es : Entries StateValue) : Json :=
  .object (Entries.mapValues (fun v => .arr [v.code, .str v.kind.text]) es)

def hook : Option Json → Json
  | none => .null
  | some code => .arr [code]

def updateHook (u : UpdateHook) : Json := .arr [u.code, .arr u.deps]

def hooks (h : Hooks) : Json :=
  .arr [hook h.onInit, hook h.onMount, .arr (h.onUpdate.map updateHook), hook h.onUnmount]

def contextRead (r : ContextRead) : Json := .arr [r.name, r.path]

def contextWrite (w : ContextWrite) : Json :=
  .arr [w.name, (w.value.map state).getD .null, w.ref, w.path]

def context (c : ContextSpec) : Json :=
  .arr [.object (Entries.mapValues contextRead c.reads), .arr (c.writes.map contextWrite)]

def refSpec (r : RefSpec) : Json := .arr [r.argument, r.typeParameter]

def declaredImport (d : DeclaredImport) : Json := .arr [d.path, .obj d.imports]

def localExport (e : LocalExport) : Json := .arr [e.code, .bool e.usedInLocal, .bool e.isFunction]

end Snapshot

mutual

/-- The value that holds every field of the node. -/
def Node.snapshot : Node → Json
  | ⟨name, properties, bindings, children, scope, elseBranch, metadata⟩ =>
    .arr [name, .object properties, .object (Entries.mapValues Snapshot.binding bindings),
      .arr (snapshots children), Snapshot.scope scope, branchSnapshot elseBranch, .obj metadata]

def branchSnapshot : Option Node → Json
  | none => .null
  | some n => n.snapshot

def snapshots : List Node → List Json
  | [] => []
  | n :: rest => n.snapshot :: snapshots rest

end

/-- The value that holds every field of the component. -/
def Component.snapshot (c : Component) : Json :=
  .arr [c.name, .arr (snapshots c.children), Snapshot.state c.state, .arr c.props, c.propsTypeRef,
    .object c.defaultProps, .object (Entries.mapValues Snapshot.refSpec c.refs),
    Snapshot.hooks c.hooks, Snapshot.context c.context,
    .arr (c.imports.map Snapshot.declaredImport),
    .object (Entries.mapValues Snapshot.localExport c.exports), .obj c.metadata, .arr c.types,
    c.css]

/-- Whether two components are the same; a number that is none is the same as itself. -/
def Component.same (c d : Component) : Bool := Json.same c.snapshot d.snapshot

end ElementCompiler
