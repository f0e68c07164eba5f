import ElementCompiler.Component.Basic
import ElementCompiler.Json.Access
import ElementCompiler.Markup.Piece
import ElementCompiler.Markup.Place
import ElementCompiler.Markup.Tag
import ElementCompiler.Snippet.Block
import ElementCompiler.Snippet.Relocate
import ElementCompiler.Text.Case
import ElementCompiler.Text.Lines

set_option autoImplicit false

/-!
The attributes of an element. Each binding is emitted by exactly one rule, picked by its mode and
key; the literal properties come before the bindings.
-/

namespace ElementCompiler.Markup

open Text

inductive BindingRule where
  | spread
  | internal
  | event
  | classes
  | ref
  | slot
  | mapped (target : Text)
  | plain
  deriving DecidableEq, Repr

def BindingRule.text : BindingRule → Text
  | .spread => "spread"
  | .internal => "internal"
  | .event => "event"
  | .classes => "class"
  | .ref => "ref"
  | .slot => "slot"
  | .mapped _ => "mapped"
  | .plain => "attribute"

/-- Keys that are emitted under a reserved name. -/
def mappedKeys : Entries Text := [("innerHTML", "innerHTML"), ("style", "style")]

def BindingRule.of (key : Text) (mode : BindingMode) : BindingRule :=
  if mode = .spread then .spread
  else if isInternalKey key || key == textKey then .internal
  else if startsWith "on" key then .event
  else if key == "class" then .classes
  else if key == "ref" then .ref
  else if isSlotKey key then .slot
  else match Entries.get? mappedKeys key with
    | some target => .mapped target
    | none => .plain

/-- What the bindings of a node give: attributes for its opening tag, markup for its body, and the
    sources that are spread. -/
structure Emitted where
  attributes : List Attribute
  deferredSlots : List Text
  spreads : List Text
  deriving DecidableEq, Repr

def Emitted.none : Emitted := ⟨[], [], []⟩

def Emitted.single (name value : Text) : Emitted := ⟨[.of name value], [], []⟩

def Emitted.append (x y : Emitted) : Emitted :=
  ⟨x.attributes ++ y.attributes, x.deferredSlots ++ y.deferredSlots, x.spreads ++ y.spreads⟩

def Emitted.concat : List Emitted → Emitted
  | [] => .none
  | e :: rest => e.append (concat rest)

def indexToken : Text := "$index"

def eventToken : Text := "$event"

/-- The event of a key such as `onClick`; changes of an input are its input events. -/
def eventName (key : Text) (n : Node) : Text :=
  let name : Text := match key.drop 2 with
    | [] => []
    | c :: cs => lower [c] ++ cs
  if name == "change" && n.name.isText "input" then "input" else name

/-- Literal radio and checkbox inputs keep their events to themselves. -/
def suppressesEvents (n : Node) : Attempt Bool :=
  match Entries.get? n.properties "type" with
  | none => .ok false
  | some j =>
    if j.isKey then .ok (j.isText "radio" || j.isText "checkbox") else .error .wrongKind

/-- A code without blanks around it and without a leading `props.` or `state.`. -/
def bare (code : Text) : Text :=
  let code := trim code
  ((after? "props." code).orElse fun _ => after? "state." code).getD code

/-- The bare codes of the spread bindings. -/
def spreadSources : Entries (Option Binding) → Attempt (List Text)
  | [] => .ok []
  | (_, none) :: _ => .error .missingOperation
  | (_, some b) :: rest =>
    if b.mode = .spread then do
      let code ← b.code.textOr .missingOperation
      return bare code :: (← spreadSources rest)
    else spreadSources rest

/-- The first place of a source that is not empty. -/
def sourcePlace? (target : Text) (sources : List Text) : Option Nat :=
  if target.isEmpty then none else sources.findIdx? (· == target)

def emitSpread (key : Text) (sources : List Text) : Emitted :=
  let target := bare key
  match sourcePlace? target sources with
  | none => .none
  | some place =>
    let suffix : Text := if sources.length = 1 then "" else toString place
    ⟨[.of ("spreadProps" ++ suffix ++ ".bind") (encodeQuotes target)], [], [target]⟩

/-- The name of the event parameter: the first argument, `event` when there are none. -/
def eventArgument (arguments : Json) : Attempt Text :=
  if !arguments.isGiven then .ok "event"
  else match arguments with
    | .arr (first :: _) => first.textOr .wrongKind
    | .str s => .ok (s.take 1)
    | .obj _ => .error .missingKey
    | _ => .error .wrongKind

/-- The code of a handler: its parameter renamed to the token, one pair of braces around it removed,
    and a callable that is only named called. -/
def handlerValue (argument : Text) (code : Json) (callableNames : List Text) :
    Attempt Text := do
  let renamed ← Snippet.onSegments (Snippet.renameArgument argument eventToken) code
  let value := Snippet.unwrapBlock renamed
  let bareValue := trim value
  return if callableNames.contains bareValue then bareValue ++ "()" else value

def emitEvent (key : Text) (b : Binding) (n : Node) (place : Place) : Attempt Emitted := do
  if ← suppressesEvents n then return .none
  else
    let argument ← eventArgument b.arguments
    let value ← handlerValue argument b.code place.callableNames
    return .single (eventName key n ++ ".delegate") (indentRest 2 value)

/-- The slot attribute put before the end of the first tag. -/
def markSlot (mark : Text) : Text → Text
  | [] => []
  | .char '/' :: .char '>' :: cs => " " ++ mark ++ "/>" ++ cs
  | c :: cs => if c = '>' then " " ++ mark ++ c :: cs else c :: markSlot mark cs

def emitSlot (key : Text) (b : Binding) : Attempt Emitted := do
  let mark := lower (slotName key)
  let code ← b.code.textOr .wrongKind
  return ⟨[], [markSlot mark code], []⟩

/-- Whether a name can be looked up among tags, and is one. -/
def isHtmlTag (name : Json) : Attempt Bool :=
  match name with
  | .str s => .ok (htmlTags.contains s)
  | j => if j.isKey then .ok false else .error .wrongKind

def emitAttribute (key : Text) (b : Binding) (n : Node) (place : Place) : Attempt Emitted := do
  let isElement ← if ← isHtmlTag n.name then pure true else pure (occursIn "-" key)
  if isElement && Entries.has n.bindings "checked" then
    let value ← (b.rawCode.orElse b.code).textOr .missingOperation
    return .single (key ++ ".bind") (encodeQuotes value)
  else
    let code ← b.code.textOr .missingOperation
    if place.indexNames.contains (trim code) then
      return .single (key ++ ".bind") indexToken
    else return .single (key ++ ".bind") (indentRest 2 code)

def emitBinding (n : Node) (place : Place) (sources : List Text) (key : Text) (b : Binding) :
    Attempt Emitted :=
  match BindingRule.of key b.mode with
  | .spread => .ok (emitSpread key sources)
  | .internal => .ok .none
  | .event => emitEvent key b n place
  | .classes => .ok (.single "class" ("$\x7b" ++ b.code.display ++ "\x7d"))
  | .ref => do return .single "ref" (trim (← b.code.textOr .missingOperation))
  | .slot => emitSlot key b
  | .mapped target => do
    return .single (target ++ ".bind") (indentRest 2 (← b.code.textOr .wrongKind))
  | .plain => emitAttribute key b n place

def emitBindings (n : Node) (place : Place) (sources : List Text) :
    Entries (Option Binding) → Attempt (List Emitted)
  | [] => .ok []
  | (_, none) :: _ => .error .missingOperation
  | (key, some b) :: rest => do
    let first ← emitBinding n place sources key b
    return first :: (← emitBindings n place sources rest)

/-- What all bindings of the node give, in their order. -/
def emitAll (n : Node) (place : Place) : Attempt Emitted := do
  let sources ← spreadSources n.bindings
  return .concat (← emitBindings n place sources n.bindings)

/-- The literal attributes, without text and internal keys. -/
def propertyAttributes (n : Node) : List Attribute :=
  (n.properties.filter fun p => p.1 != textKey && !isInternalKey p.1).map fun p =>
    .of p.1 p.2.display

end ElementCompiler.Markup
