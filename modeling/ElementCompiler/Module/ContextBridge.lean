import ElementCompiler.Module.State

set_option autoImplicit false

/-!
Contexts over an event aggregator. A read subscribes to the channel of its context and keeps each
payload in a field; a write publishes to that channel.
-/

namespace ElementCompiler.Module

open Text

/-- The statements that subscribe and those that publish. -/
structure ContextBridge where
  readCode : Text
  writeCode : Text
  deriving DecidableEq, Repr

def readStatement (field : Text) (r : ContextRead) : Text :=
  "this.eventAggregator.subscribe(" ++ r.name.display ++ ".key, (payload) => \x7b\n  this." ++
    field ++ " = payload;\n\x7d);"

/-- The published value: the literal value, else the reference, else nothing. -/
def writtenValue (process : CodeMapper) (w : ContextWrite) : Attempt Json := do
  match w.value with
  | some (v :: vs) => process (.str (← objectLiteral pure (v :: vs)))
  | _ => if w.ref.isGiven then process w.ref else return .str "undefined"

def writeStatement (process : CodeMapper) (w : ContextWrite) : Attempt Text := do
  let value ← writtenValue process w
  return "this.eventAggregator.publish(" ++ w.name.display ++ ".key, " ++ value.display ++ ");"

def ContextBridge.build (context : ContextSpec) (process : CodeMapper) : Attempt ContextBridge := do
  let writes ← context.writes.mapM (writeStatement process)
  return ⟨join "\n" (context.reads.map fun r => readStatement r.1 r.2), join "\n" writes⟩

namespace ContextBridge

def hasReads (b : ContextBridge) : Bool := !b.readCode.isEmpty

def hasWrites (b : ContextBridge) : Bool := !b.writeCode.isEmpty

def method (name code : Text) : Text := name ++ "() \x7b\n" ++ code ++ "\n\x7d"

def readMethod (b : ContextBridge) : Text :=
  if b.hasReads then method "getContext" b.readCode else ""

def writeMethod (b : ContextBridge) : Text :=
  if b.hasWrites then method "setContext" b.writeCode else ""

/-- What the mount hook calls, reads first. -/
def mountCalls (b : ContextBridge) : Text :=
  let reads : List Text := if b.hasReads then ["this.getContext();"] else []
  let writes : List Text := if b.hasWrites then ["this.setContext();"] else []
  join "\n" (reads ++ writes)

end ContextBridge
end ElementCompiler.Module
