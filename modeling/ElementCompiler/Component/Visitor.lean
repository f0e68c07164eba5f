import ElementCompiler.Component.Basic
import ElementCompiler.Fault

set_option autoImplicit false

/-!
One pass over the snippets of a component, in a fixed order: hooks, updates with their
dependencies, state, initial values of refs, then node by node bindings and literal attributes. A
visitor says what becomes of each kind of snippet; everything else stays.
-/

namespace ElementCompiler

/-- What becomes of each kind of snippet. -/
structure Visitor (m : Type → Type) where
  hook : Json → m Json
  deps : List Json → m (List Json)
  state : Json → m Json
  refArgument : Json → m Json
  binding : Text → Option Binding → m (Option Binding)
  property : Json → m Json

namespace Visitor

variable {m : Type → Type} [Monad m]

def mapEntries {α β : Type} (f : Text → α → m β) : Entries α → m (Entries β)
  | [] => pure []
  | (key, value) :: rest => do
    let first ← f key value
    let rest ← mapEntries f rest
    return (key, first) :: rest

def mapOption {α β : Type} (f : α → m β) : Option α → m (Option β)
  | none => pure none
  | some a => do return some (← f a)

mutual

def visitNode (v : Visitor m) : Node → m Node
  | ⟨name, properties, bindings, children, scope, elseBranch, metadata⟩ => do
    let bindings ← mapEntries v.binding bindings
    let properties ← mapEntries (fun _ => v.property) properties
    let elseBranch ← visitBranch v elseBranch
    let children ← visitNodes v children
    return ⟨name, properties, bindings, children, scope, elseBranch, metadata⟩

def visitBranch (v : Visitor m) : Option Node → m (Option Node)
  | none => pure none
  | some n => do return some (← visitNode v n)

def visitNodes (v : Visitor m) : List Node → m (List Node)
  | [] => pure []
  | n :: rest => do
    let first ← visitNode v n
    let rest ← visitNodes v rest
    return first :: rest

end

def visitUpdate (v : Visitor m) (u : UpdateHook) : m UpdateHook := do
  let code ← v.hook u.code
  let deps ← v.deps u.deps
  return ⟨code, deps⟩

def visitUpdates (v : Visitor m) : List UpdateHook → m (List UpdateHook)
  | [] => pure []
  | u :: rest => do
    let first ← visitUpdate v u
    let rest ← visitUpdates v rest
    return first :: rest

def visitHooks (v : Visitor m) (h : Hooks) : m Hooks := do
  let onInit ← mapOption v.hook h.onInit
  let onMount ← mapOption v.hook h.onMount
  let onUnmount ← mapOption v.hook h.onUnmount
  let onUpdate ← visitUpdates v h.onUpdate
  return ⟨onInit, onMount, onUpdate, onUnmount⟩

def visitState (v : Visitor m) (s : StateValue) : m StateValue := do
  return { s with code := ← v.state s.code }

def visitRef (v : Visitor m) (r : RefSpec) : m RefSpec := do
  return { r with argument := ← v.refArgument r.argument }

def visit (v : Visitor m) (c : Component) : m Component := do
  let hooks ← visitHooks v c.hooks
  let state ← mapEntries (fun _ => visitState v) c.state
  let refs ← mapEntries (fun _ => visitRef v) c.refs
  let children ← visitNodes v c.children
  return { c with hooks, state, refs, children }

end Visitor

/-- A pass that stops at its first fault: what was visited before is changed, the rest is not. -/
abbrev Pass := StateM (Option Fault)

/-- A step of a pass, left out once there is a fault. -/
def Pass.step {α : Type} (f : α → Attempt α) (a : α) : Pass α := fun fault =>
  match fault with
  | some e => (a, some e)
  | none =>
    match f a with
    | .ok b => (b, none)
    | .error e => (a, some e)

/-- A component after an edit, with the fault that cut the edit short. -/
structure Edited where
  component : Component
  fault : Option Fault

def Edited.toAttempt (e : Edited) : Attempt Component :=
  match e.fault with
  | none => .ok e.component
  | some fault => .error fault

def Edited.ofAttempt (before : Component) : Attempt Component → Edited
  | .ok c => ⟨c, none⟩
  | .error fault => ⟨before, some fault⟩

def Visitor.edit (v : Visitor Pass) (c : Component) : Edited :=
  let r := Visitor.visit v c none
  ⟨r.1, r.2⟩

/-- A change of the code of a binding; one that has been taken away has none. -/
def onBindingCode (f : Json → Attempt Json) : Option Binding → Attempt (Option Binding)
  | some b => do return some { b with code := ← f b.code }
  | none => .error .missingOperation

end ElementCompiler
