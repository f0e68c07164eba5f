import ElementCompiler.Component.Basic
import ElementCompiler.Fault

set_option autoImplicit false

/-!
Plugins. A compilation has four stages at which transforms may run, two on the component and two on
the code; at each the transforms run in the order in which their plugins were added.
-/

namespace ElementCompiler

/-- The stages in the order in which they run. -/
inductive Stage where
  | preComponent
  | postComponent
  | preCode
  | postCode
  deriving DecidableEq, Repr

def Stage.text : Stage → Text
  | .preComponent => "pre_ir"
  | .postComponent => "post_ir"
  | .preCode => "pre_code"
  | .postCode => "post_code"

def Stage.all : List Stage := [.preComponent, .postComponent, .preCode, .postCode]

abbrev ComponentTransform := Component → Attempt Component

abbrev CodeTransform := Text → Attempt Text

/-- A bundle of transforms, at most one for each stage. -/
structure Plugin where
  preComponent : Option ComponentTransform
  postComponent : Option ComponentTransform
  preCode : Option CodeTransform
  postCode : Option CodeTransform

structure PluginSet where
  preComponent : List ComponentTransform
  postComponent : List ComponentTransform
  preCode : List CodeTransform
  postCode : List CodeTransform

namespace PluginSet

def empty : PluginSet := ⟨[], [], [], []⟩

/-- The set with the transforms of the plugin after its own. -/
def add (s : PluginSet) (p : Plugin) : PluginSet :=
  ⟨s.preComponent ++ p.preComponent.toList, s.postComponent ++ p.postComponent.toList,
    s.preCode ++ p.preCode.toList, s.postCode ++ p.postCode.toList⟩

def ofPlugins (ps : List Plugin) : PluginSet := ps.foldl add empty

/-- How many transforms a stage has. -/
def count (s : PluginSet) : Stage → Nat
  | .preComponent => s.preComponent.length
  | .postComponent => s.postComponent.length
  | .preCode => s.preCode.length
  | .postCode => s.postCode.length

def counts (s : PluginSet) : List Nat := Stage.all.map s.count

def runAll {α : Type} : List (α → Attempt α) → α → Attempt α
  | [], a => .ok a
  | t :: rest, a => do runAll rest (← t a)

/-- The component after the transforms of a stage that is one of components. -/
def runComponent (s : PluginSet) (stage : Stage) (c : Component) : Attempt Component :=
  match stage with
  | .preComponent => runAll s.preComponent c
  | .postComponent => runAll s.postComponent c
  | stage => .error (.notComponentStage stage.text)

/-- The code after the transforms of a stage that is one of code. -/
def runCode (s : PluginSet) (stage : Stage) (code : Text) : Attempt Text :=
  match stage with
  | .preCode => runAll s.preCode code
  | .postCode => runAll s.postCode code
  | stage => .error (.notCodeStage stage.text)

end PluginSet
end ElementCompiler
