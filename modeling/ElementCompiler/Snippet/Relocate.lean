import ElementCompiler.Json.Access
import ElementCompiler.Snippet.Occurrence
import ElementCompiler.Snippet.Segment
import ElementCompiler.Snippet.Template

set_option autoImplicit false

/-!
Relocating the references that a snippet makes to members of its component. Names of members are put
behind a receptor such as `this.`; `state.x` and `props.x` become what a receptor makes of `x`.
String literals stay as they are.
-/

namespace ElementCompiler.Snippet

open Text

/-- What a reference `state.x` or `props.x` is written as, given `x`. -/
abbrev Receptor := Text → Text

def Receptor.before (lead : Text) : Receptor := fun name => lead ++ name

/-- The slotted children have a receptor of their own. -/
def Receptor.withChildren (lead children : Text) : Receptor := fun name =>
  if name = "children" then children else lead ++ name

/-- The member that `state.x` or `props.x` names here. -/
def memberAt? (before rest : Text) : Option Text :=
  if headIs isJoined before then none
  else
    match (after? "state." rest).orElse fun _ => after? "props." rest with
    | some (c :: cs) =>
      if c.is isNameStart then some (c :: cs.takeWhile continuesName) else none
    | _ => none

/-- The length of `state.` and of `props.`. -/
def leadLength : Nat := 6

def stripFrom (receptor : Receptor) : Nat → Text → Text → Text
  | _, _, [] => []
  | skip + 1, before, c :: cs => stripFrom receptor skip (c :: before) cs
  | 0, before, c :: cs =>
    match memberAt? before (c :: cs) with
    | none => c :: stripFrom receptor 0 (c :: before) cs
    | some name =>
      receptor name ++ stripFrom receptor (leadLength + name.length - 1) (c :: before) cs

/-- Every `state.x` and `props.x` outside literals as the receptor writes it. -/
def strip (receptor : Receptor) (code : Text) : Text :=
  mapPlain (stripFrom receptor 0 []) code

/-- One name replaced outside literals where it is used. -/
def replaceOne (written : Text) (name code : Text) : Text :=
  mapPlain (substitute name fun before after =>
    if isBindingPosition before after then name else written) code

/-- The names replaced one after the other, each in what the one before it left. -/
def replaceNames (written : Text → Text) (names : List Text) (code : Text) : Text :=
  names.foldl
    (fun code name => if name.isEmpty then code else replaceOne (written name) name code) code

def relocate (lead : Text) (names : List Text) (code : Text) : Text :=
  replaceNames (lead ++ ·) names code

/-- The names, each once, put behind the receptor of the instance; then every `state.x` and
    `props.x` as the other receptor writes it. -/
def relocateMembers (names : List Text) (lead : Text) (receptor : Receptor) (code : Text) : Text :=
  strip receptor (relocate lead names.eraseDups code)

/-- The parameter of a callback renamed wherever it stands outside literals. -/
def renameArgument (argument token code : Text) : Text :=
  mapPlain (substitute argument fun _ _ => token) code

/-- `ref.current` cut down to `ref`, inside literals too. The name of the ref is used as a
    replacement template. -/
def dropCurrent (name : Text) (code : Json) : Attempt Text := do
  let parts ← template name
  let text ← code.textOr .wrongKind
  return substitute (name ++ ".current") (fun _ _ => expand parts (name ++ ".current")) text

/-- A ref and its current value replaced by its field. -/
def relocateRef (lead : Text) (name field : Text) (code : Json) : Attempt Text := do
  let code ← dropCurrent name code
  return if name.isEmpty then code else replaceOne (lead ++ field) name code

/-- Each ref and its current value replaced by its field, one ref after the other. -/
def relocateEach (lead : Text) : List (Text × Text) → Json → Attempt Json
  | [], code => .ok code
  | (name, field) :: rest, code => do
    relocateEach lead rest (.str (← relocateRef lead name field code))

/-- Refs in a snippet written as their fields behind a receptor; a snippet that does not count as
    given stays. -/
def relocateRefs (fields : List (Text × Text)) (lead : Text) (code : Json) : Attempt Json :=
  if code.isGiven then relocateEach lead fields code else .ok code

/-- A function on code applied to a value: what does not count as given stays, and what is given but
    is no text is refused. -/
def onGiven (f : Text → Text) (j : Json) : Attempt Json :=
  match j with
  | .str s => .ok (.str (if s.isEmpty then s else f s))
  | .obj fields => if fields.isEmpty then .ok j else .error .missingKey
  | j => if j.isGiven then .error .wrongKind else .ok j

/-- A function on code applied to a value that is cut into segments whether it is given or not; an
    empty list or object has no segments. -/
def onSegments (f : Text → Text) (j : Json) : Attempt Text :=
  match j with
  | .str s => .ok (f s)
  | .arr [] | .obj [] => .ok []
  | .obj _ => .error .missingKey
  | _ => .error .wrongKind

end ElementCompiler.Snippet
