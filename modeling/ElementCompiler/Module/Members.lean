import ElementCompiler.Component.CodeCategory
import ElementCompiler.Component.Names
import ElementCompiler.Markup.Tag
import ElementCompiler.Module.State
import ElementCompiler.Options

set_option autoImplicit false

/-!
The members of a generated class by name, and how code is changed so that it reaches them: in the
class through `this.`, in the view by their bare names.
-/

namespace ElementCompiler.Module

open Text

/-- The names that a component gives to members of its class. -/
structure Members where
  contextVars : List Text
  stateVars : List Text
  outputVars : List Text
  domRefs : List Text
  props : List Json

/-- Props named like handlers can be outputs. -/
def isOutputName (name : Text) : Bool :=
  match after? "on" name with
  | some (c :: _) => c.is Char.isUpper
  | _ => false

def outputNames : List Json → Attempt (List Text)
  | [] => .ok []
  | prop :: rest => do
    let name ← prop.textOr .wrongKind
    let names ← outputNames rest
    return if isOutputName name then name :: names else names

def childrenProp : Text := "children"

/-- The experimental options, refused when they are no group. -/
def experimentalOf (o : CompileOptions) : Attempt ExperimentalOptions :=
  match o.experimental with
  | some e => .ok e
  | none => .error .missingOperation

/-- The plugins, refused when they are no group. -/
def pluginsOf (o : CompileOptions) : Attempt PluginSet :=
  match o.plugins with
  | some p => .ok p
  | none => .error .missingOperation

def Members.collect (o : CompileOptions) (c : Component) : Attempt Members := do
  let props := (← c.propNames).filter fun p => !p.isText childrenProp
  let experimental ← experimentalOf o
  let outputVars ← if experimental.outputs.isSome then outputNames props else pure []
  let domRefs ← c.domRefs
  return {
    contextVars := Entries.keys c.context.reads
    stateVars := Entries.keys c.state
    outputVars, domRefs
    props := props.filter fun p => !outputVars.any p.isText }

/-- All names that stand behind `this.` in the class. -/
def Members.names (m : Members) : List Text :=
  m.contextVars ++ m.outputVars ++ m.domRefs ++ m.stateVars

def instanceLead : Text := "this."

/-- The code with every reference to a member behind `this.`. -/
def Members.classCode (m : Members) : CodeMapper :=
  Snippet.onGiven (Snippet.relocateMembers m.names instanceLead (.before instanceLead))

/-- The code with the names behind `this.`; code without any of them to look for may be anything. -/
def relocateNames (names : List Text) (code : Json) : Attempt Json :=
  if names.all List.isEmpty then .ok code
  else do return .str (← Snippet.onSegments (Snippet.relocate instanceLead names) code)

/-- Code of the hooks: members behind `this.`, then callable state as well. -/
def Members.hookCode (m : Members) (callableNames : List Text) : CodeMapper := fun code => do
  relocateNames callableNames (← m.classCode code)

/-- Code of bindings: outputs behind `this.`, other members bare, double quotes encoded. -/
def Members.bindingCode (m : Members) : CodeMapper := fun code => do
  let code ← Snippet.onGiven (Snippet.relocateMembers m.outputVars instanceLead (.before "")) code
  return .str (Markup.encodeQuotes (← code.textOr .missingOperation))

/-- Names that an update depends on, bare. -/
def dependencyName : CodeMapper := Snippet.onGiven (Snippet.strip (.before ""))

def Members.processor (m : Members) (callableNames : List Text) : CodeProcessor
  | .hooks => m.hookCode callableNames
  | .bindings => m.bindingCode
  | .hooksDeps => dependencyName
  | .state => pure
  | .properties => pure

/-- What a context write publishes: members behind `this.`, the children as the default slot. -/
def publishedCode : CodeMapper :=
  Snippet.onGiven (Snippet.strip (.withChildren instanceLead "$$slots.default"))

end ElementCompiler.Module
