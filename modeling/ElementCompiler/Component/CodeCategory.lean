import ElementCompiler.Component.Visitor

set_option autoImplicit false

/-!
Processing all code of a component in place by what kind of code it is. Raw code, arguments of
callbacks, initial values of refs and contexts keep what they have.
-/

namespace ElementCompiler

/-- Where a snippet stands, which decides how it is processed. -/
inductive CodeCategory where
  | hooks
  | hooksDeps
  | bindings
  | state
  | properties
  deriving DecidableEq, Repr

def CodeCategory.text : CodeCategory → Text
  | .hooks => "hooks"
  | .hooksDeps => "hooks-deps"
  | .bindings => "bindings"
  | .state => "state"
  | .properties => "properties"

/-- What becomes of a snippet of each category. -/
abbrev CodeProcessor := CodeCategory → Json → Attempt Json

/-- The visitor that processes by category; the dependencies of an update change all or not at
    all. -/
def CodeProcessor.visitor (p : CodeProcessor) : Visitor Pass where
  hook := Pass.step (p .hooks)
  deps := Pass.step fun deps => deps.mapM (p .hooksDeps)
  state := Pass.step (p .state)
  refArgument := pure
  binding := fun _ => Pass.step (onBindingCode (p .bindings))
  property := Pass.step (p .properties)

def Component.processCode (p : CodeProcessor) (c : Component) : Edited := p.visitor.edit c

end ElementCompiler
