import ElementCompiler.Json.Basic
import ElementCompiler.Text.Literal

set_option autoImplicit false

/-!
Components. A component is a tree of nodes with state, props, refs, lifecycle hooks, context reads
and writes, imports and local exports. Code, names and the like are texts in a well-formed
description, but a description may hold any value there, so these fields keep the value they were
given.
-/

namespace ElementCompiler

/-- How a binding contributes to its element. -/
inductive BindingMode where
  | normal
  | spread
  deriving DecidableEq, Repr

def BindingMode.text : BindingMode → Text
  | .normal => "normal"
  | .spread => "spread"

def BindingMode.all : List BindingMode := [.normal, .spread]

/-- A dynamic attribute or text value on a node; `arguments` are the parameter names of a
    callback. -/
structure Binding where
  code : Json
  rawCode : Json
  mode : BindingMode
  arguments : Json

/-- A binding whose raw code is its code. -/
def Binding.ofCode (code : Json) (mode : BindingMode) : Binding := ⟨code, code, mode, .null⟩

/-- The variables that a loop introduces. -/
structure Scope where
  forName : Json
  indexName : Json
  collectionName : Json

def Scope.empty : Scope := ⟨.null, .null, .null⟩

/-- One element, control-flow construct or unit of text. Properties are literal attributes,
    bindings are code. When the node has an else branch, `metadata` keeps its place at the key
    `else` with the value null. A binding without a value is one that a transform has taken
    away. -/
structure Node where
  name : Json
  properties : Entries Json
  bindings : Entries (Option Binding)
  children : List Node
  scope : Scope
  elseBranch : Option Node
  metadata : Entries Json Key

inductive StateKind where
  | data
  | function
  | method
  | getter
  deriving DecidableEq, Repr

def StateKind.text : StateKind → Text
  | .data => "data"
  | .function => "function"
  | .method => "method"
  | .getter => "getter"

def StateKind.all : List StateKind := [.data, .function, .method, .getter]

/-- Methods and getters carry their own signature. -/
def StateKind.isSelfNamed : StateKind → Bool
  | .method | .getter => true
  | _ => false

structure StateValue where
  code : Json
  kind : StateKind

def StateValue.isCallable (v : StateValue) : Bool := v.kind = .function || v.kind = .method

/-- Code that runs after an update, with the names it depends on. -/
structure UpdateHook where
  code : Json
  deps : List Json

/-- The code of the lifecycle hooks that are there. -/
structure Hooks where
  onInit : Option Json
  onMount : Option Json
  onUpdate : List UpdateHook
  onUnmount : Option Json

structure RefSpec where
  argument : Json
  typeParameter : Json

/-- A context read: `name` is the context that carries the key of the channel. -/
structure ContextRead where
  name : Json
  path : Json

/-- A context write of a literal value or of a reference. -/
structure ContextWrite where
  name : Json
  value : Option (Entries StateValue)
  ref : Json
  path : Json

structure ContextSpec where
  reads : Entries ContextRead
  writes : List ContextWrite

/-- An import of the component source: each local name with `default`, `*` or the exported name. -/
structure DeclaredImport where
  path : Json
  imports : Entries Json Key

/-- The local names bound to the default export. -/
def DeclaredImport.defaultNames (d : DeclaredImport) : List Key :=
  Entries.keys (d.imports.filter fun e => e.2.isText "default")

/-- Code of the module that is exported beside the component. -/
structure LocalExport where
  code : Json
  usedInLocal : Bool
  isFunction : Bool

structure Component where
  name : Json
  children : List Node
  state : Entries StateValue
  props : List Json
  propsTypeRef : Json
  defaultProps : Entries Json
  refs : Entries RefSpec
  hooks : Hooks
  context : ContextSpec
  imports : List DeclaredImport
  exports : Entries LocalExport
  metadata : Entries Json Key
  types : List Json
  css : Json

/-- The key of literal text among properties and of interpolated text among bindings. -/
def textKey : Text := "_text"

/-- Keys that begin so are bookkeeping and never shown. -/
def isInternalKey (key : Text) : Bool := Text.startsWith "$" key

def elseKey : Text := "else"

namespace Node

def isLoop (n : Node) : Bool := n.name.isText "For"

def isConditional (n : Node) : Bool := n.name.isText "Show"

def isFragment (n : Node) : Bool := n.name.isText "Fragment"

def isSlot (n : Node) : Bool := n.name.isText "Slot"

/-- The binding at a key, unless it has been taken away. -/
def binding? (n : Node) (key : Text) : Option Binding := (Entries.get? n.bindings key).join

mutual

/-- The node, then its else branch, then its children, each with what is below it. -/
def subtree : Node → List Node
  | ⟨name, properties, bindings, children, scope, elseBranch, metadata⟩ =>
    ⟨name, properties, bindings, children, scope, elseBranch, metadata⟩ ::
      (branchNodes elseBranch ++ subtrees children)

def branchNodes : Option Node → List Node
  | none => []
  | some n => n.subtree

def subtrees : List Node → List Node
  | [] => []
  | n :: rest => n.subtree ++ subtrees rest

end

end Node

namespace Component

/-- All nodes in order, else branches before children. -/
def nodes (c : Component) : List Node := Node.subtrees c.children

/-- The state that can be called by its bare name. -/
def callableNames (c : Component) : List Text :=
  Entries.keys (c.state.filter fun e => e.2.isCallable)

end Component

/-- The names of nodes that control the flow. -/
def builtInNames : List Text := ["For", "Show", "Fragment", "Slot"]

end ElementCompiler
