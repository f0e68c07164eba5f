import ElementCompiler.Text.Basic

set_option autoImplicit false

/-!
Where a node is rendered: the construct around it, the index names of the loops around it, and the
state that can be called by its bare name.
-/

namespace ElementCompiler.Markup

/-- The construct in which a node stands. -/
inductive Location where
  | start
  | templateRoot
  | loop
  | conditional
  | otherwise
  | fragment
  | slot
  | children
  deriving DecidableEq, Repr

def Location.text : Location → Text
  | .start => "start"
  | .templateRoot => "template-root"
  | .loop => "for"
  | .conditional => "show"
  | .otherwise => "else"
  | .fragment => "fragment"
  | .slot => "slot"
  | .children => "children"

def Location.all : List Location :=
  [.start, .templateRoot, .loop, .conditional, .otherwise, .fragment, .slot, .children]

structure Place where
  location : Location
  indexNames : List Text
  callableNames : List Text
  deriving DecidableEq, Repr

def Place.start : Place := ⟨.start, [], []⟩

def Place.inside (place : Place) (location : Location) : Place :=
  { place with location := location }

/-- The place with one more index name, unless it is empty or there already. -/
def Place.withIndex (place : Place) (name : Text) : Place :=
  if name.isEmpty || place.indexNames.contains name then place
  else { place with indexNames := place.indexNames ++ [name] }

/-- The spread sources of several places, each where it first occurs. -/
def mergeSpreads (groups : List (List Text)) : List Text := groups.flatten.eraseDups

end ElementCompiler.Markup
