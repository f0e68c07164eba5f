import ElementCompiler.Component.Basic
import ElementCompiler.Json.Access
import ElementCompiler.Snippet.Relocate
import ElementCompiler.Text.Blank
import ElementCompiler.Text.Case

set_option autoImplicit false

/-!
Names that a component uses: props read by its code, refs bound to elements, components used as
tags, and imports used by bindings. Each list is in the order of first use, without repetition.
-/

namespace ElementCompiler

open Text

namespace Node

/-- The codes of the bindings; none stands for a binding that has been taken away. -/
def codes (n : Node) : List (Option Json) := n.bindings.map fun b => b.2.map Binding.code

end Node

namespace Component

def stateCodes (es : Entries StateValue) : List Json := (Entries.values es).map StateValue.code

def writeCodes (w : ContextWrite) : List Json :=
  (if w.ref.isGiven then [w.ref] else []) ++ stateCodes (w.value.getD [])

/-- The initial value of a ref, if it counts as given. -/
def initialValue? (r : RefSpec) : Option Json :=
  if r.argument.isGiven then some r.argument else none

/-- Every snippet of the component: bindings, state, hooks, updates, initial values of refs, and
    what is written to contexts. -/
def snippets (c : Component) : List (Option Json) :=
  c.nodes.flatMap Node.codes ++
    (stateCodes c.state ++ c.hooks.onInit.toList ++ c.hooks.onMount.toList ++
      c.hooks.onUnmount.toList ++ c.hooks.onUpdate.map UpdateHook.code ++
      (Entries.values c.refs).filterMap initialValue? ++
      c.context.writes.flatMap writeCodes).map some

/-- The snippets, unless a binding has been taken away. -/
def allSnippets (c : Component) : Attempt (List Json) :=
  c.snippets.mapM fun
    | some code => .ok code
    | none => .error .missingOperation

/-- The name after `props.` when a read of a prop begins here. -/
def propAt? (before rest : Text) : Option (Text) :=
  if Snippet.headIs Snippet.isJoined before then none
  else match after? "props." rest with
    | some (c :: cs) =>
      if c.is isNameStart then some (c :: cs.takeWhile Snippet.continuesName) else none
    | _ => none

/-- The props that a snippet reads, inside literals too; `skip` counts the characters of a read that
    are still to be passed over. -/
def propReadsFrom : Nat → Text → Text → List Text
  | _, _, [] => []
  | skip + 1, before, c :: cs => propReadsFrom skip (c :: before) cs
  | 0, before, c :: cs =>
    match propAt? before (c :: cs) with
    | none => propReadsFrom 0 (c :: before) cs
    | some name =>
      name :: propReadsFrom (Snippet.leadLength + name.length - 1) (c :: before) cs

def propReads (code : Text) : List Text := propReadsFrom 0 [] code

def codeProps : List (Option Json) → Attempt (List Text)
  | [] => .ok []
  | none :: _ => .error .missingOperation
  | some code :: rest => do
    let text ← code.textOr .wrongKind
    return propReads text ++ (← codeProps rest)

/-- The declared props and then those that the code reads. -/
def propNames (c : Component) : Attempt (List Json) := do
  if c.props.all Json.isKey then
    let read ← codeProps c.snippets
    return Json.distinct (c.props ++ read.map .str)
  else .error .wrongKind

def refNames : List Node → Attempt (List Text)
  | [] => .ok []
  | n :: rest =>
    match n.binding? "ref" with
    | none => refNames rest
    | some b => do
      let name := trim (← b.code.textOr .missingOperation)
      let names ← refNames rest
      return if name.isEmpty then names else name :: names

/-- The refs that elements are bound to. -/
def domRefs (c : Component) : Attempt (List Text) := do
  return (← refNames c.nodes).eraseDups

/-- The name of a node when it begins with a capital and is not that of a control-flow node. -/
def componentTag (name : Json) : Attempt (Option Text) :=
  if !name.isGiven then .ok none
  else match name with
    | .str s =>
      .ok (if isUpperCase (s.take 1) && !builtInNames.contains s then some s else none)
    | .arr (first :: _) =>
      if !first.isGiven then .ok none
      else match first with
        | .str s => if isUpperCase s then .error .wrongKind else .ok none
        | _ => .error .missingOperation
    | .obj _ => .error .missingKey
    | _ => .error .wrongKind

/-- The components that are used as tags. -/
def componentsUsed (c : Component) : Attempt (List Text) := do
  let tags ← c.nodes.mapM fun n => componentTag n.name
  return (tags.filterMap id).eraseDups

def isUsedIn (name : Text) : List Json → Attempt Bool
  | [] => .ok false
  | code :: rest => do
    let text ← code.textOr .wrongKind
    if Snippet.uses text name then return true else isUsedIn name rest

def bindingCodes (c : Component) : Attempt (List Json) :=
  (c.nodes.flatMap Node.codes).mapM fun
    | some code => .ok code
    | none => .error .missingOperation

/-- A name that is no text cannot be looked for. -/
def usedImports (tags : List Text) (codes : List Json) (found : List Text) :
    List Key → Attempt (List Text)
  | [] => .ok found
  | .text name :: rest => do
    if tags.contains name || found.contains name then usedImports tags codes found rest
    else if ← isUsedIn name codes then usedImports tags codes (found ++ [name]) rest
    else usedImports tags codes found rest
  | _ :: _ => .error .wrongKind

/-- The imported names that bindings use and that are not only tags. -/
def customImports (c : Component) : Attempt (List Text) := do
  let codes ← c.bindingCodes
  let tags ← c.componentsUsed
  usedImports tags codes [] (c.imports.flatMap fun d => Entries.keys d.imports)

/-- The local exports that the component itself uses. -/
def localExportNames (c : Component) : List Text :=
  Entries.keys (c.exports.filter fun e => e.2.usedInLocal)

end Component
end ElementCompiler
