import ElementCompiler.Markup.Attributes

set_option autoImplicit false

/-!
Rendering of node trees as markup. What varies with the place of a node travels down in its
`Place`; the spread sources met in a subtree travel up with its pieces.
-/

namespace ElementCompiler.Markup

open Text

/-- The markup of a subtree and the spread sources in it. -/
structure Block where
  pieces : List Piece
  spreads : List Text
  deriving DecidableEq, Repr

def Block.text (b : Block) : Text := piecesText b.pieces

/-- The rule by which a node is rendered. -/
inductive BlockRule where
  | fragment
  | slot
  | childrenPlaceholder
  | literalText (value : Json)
  | interpolation (code : Text)
  | loop
  | conditional
  | element

/-- Whether the node stands for the children that its component is given. -/
def isChildrenPlaceholder (n : Node) : Attempt Bool :=
  match n.binding? textKey with
  | none => .ok false
  | some b => do
    let code := trim (← b.code.textOr .missingOperation)
    return code == "props.children" || code == "children"

/-- The rule for the node; text comes before loops and conditionals. -/
def blockRule (n : Node) : Attempt BlockRule := do
  if n.isFragment then return .fragment
  else if n.isSlot then return .slot
  else if ← isChildrenPlaceholder n then return .childrenPlaceholder
  else match Entries.get? n.properties textKey with
    | some value => return .literalText value
    | none =>
      match (n.binding? textKey).bind fun b => b.code.nonEmptyText? with
      | some code => return .interpolation code
      | none =>
        if n.isLoop then return .loop
        else if n.isConditional then return .conditional
        else return .element

/-- Literal text that is no text cannot be joined with its siblings. -/
def canBeJoined (n : Node) : Bool :=
  match blockRule n with
  | .ok (.literalText (.str _)) => true
  | .ok (.literalText _) => false
  | _ => true

/-- Sibling blocks one after the other. -/
def joinBlocks (sep : Text) (nodes : List Node) (blocks : List Block) : Attempt Block :=
  if nodes.all canBeJoined then
    .ok ⟨joinPieces sep (blocks.map Block.pieces), mergeSpreads (blocks.map Block.spreads)⟩
  else .error .wrongKind

/-- A text binding: a slot, the index of a loop, or an interpolation. -/
def interpolation (code : Text) (place : Place) : List Piece :=
  let stripped := trim code
  let member := (after? "props." stripped).getD stripped
  if isSlotKey member then
    element "slot" [.of "select" ("[" ++ slotSelector member ++ "]")] []
  else if place.indexNames.contains stripped then [.raw ("$\x7b" ++ indexToken ++ "\x7d")]
  else [.raw ("$\x7b" ++ code ++ "\x7d")]

/-- The name attribute of a slot: by its binding, else by its property. -/
def slotAttributes (n : Node) : Attempt (List Attribute) := do
  let name := match n.binding? "name" with
    | some b => b.code
    | none => (Entries.get? n.properties "name").getD (.str [])
  if name.isGiven then return [.of "name" (slotSelector (← name.textOr .wrongKind))]
  else return []

/-- The codes of the other bindings of a slot that count as given. -/
def nestedCodes : Entries (Option Binding) → Attempt (List Json)
  | [] => .ok []
  | (key, b) :: rest =>
    if key == "name" then nestedCodes rest
    else match b with
      | none => .error .missingOperation
      | some b => do
        let codes ← nestedCodes rest
        return if b.code.isGiven then b.code :: codes else codes

def slotBody (nested : List Json) (children : List Piece) : Attempt (List Piece) := do
  let nested ← nested.mapM (Json.textOr .wrongKind)
  let groups := nested.map fun code => [Piece.raw code]
  return joinPieces "\n" (if (piecesText children).isEmpty then groups else groups ++ [children])

/-- The collection of a loop. -/
def loopCollection (n : Node) : Attempt Text := do
  match n.binding? "each" with
  | none => .error (.malformed .loopNotRendered)
  | some b =>
    let code ← b.code.textOr .missingOperation
    if (trim code).isEmpty then .error (.malformed .loopNotRendered) else return code

def loopPlace (scope : Scope) (place : Place) : Place :=
  let inner := place.inside .loop
  match scope.indexName with
  | .str name => inner.withIndex name
  | _ => inner

def templateTag : Text := "template"

def conditionText (n : Node) : Text :=
  match n.binding? "when" with
  | some b => b.code.display
  | none => "undefined"

/-- A conditional with its else branch, which stands in a template of its own after it. -/
def withBranch (positive : Block) (negative : Option Block) : Block :=
  match negative with
  | none => positive
  | some b =>
    ⟨positive.pieces ++
        .raw "\n" :: element templateTag [⟨"else", none⟩] (.raw "\n" :: (b.pieces ++ [.raw "\n"])),
      mergeSpreads [positive.spreads, b.spreads]⟩

/-- An element around its deferred slots and its children. -/
def elementBlock (selector : Text) (attributes : List Attribute) (emitted : Emitted)
    (children : Block) : Block :=
  ⟨.opening selector (attributes ++ emitted.attributes) ::
      (emitted.deferredSlots.map Piece.raw ++ children.pieces ++ [.raw "\n", .closing selector]),
    mergeSpreads [emitted.spreads, children.spreads]⟩

mutual

/-- The block of a node and what is below it. -/
def renderNode (place : Place) : Node → Attempt Block
  | ⟨name, properties, bindings, children, scope, elseBranch, metadata⟩ => do
    let n : Node := ⟨name, properties, bindings, children, scope, elseBranch, metadata⟩
    match ← blockRule n with
    | .fragment =>
      joinBlocks "\n" children (← renderNodes (place.inside .fragment) children)
    | .slot =>
      let attributes ← slotAttributes n
      let nested ← nestedCodes bindings
      let body ← joinBlocks "\n" children (← renderNodes (place.inside .slot) children)
      return ⟨element "slot" attributes (← slotBody nested body.pieces), body.spreads⟩
    | .childrenPlaceholder => return ⟨element "slot" [] [], []⟩
    | .literalText value => return ⟨[.raw value.display], []⟩
    | .interpolation code => return ⟨interpolation code place, []⟩
    | .loop =>
      let collection ← loopCollection n
      let body ← joinBlocks "\n" children (← renderNodes (loopPlace scope place) children)
      let head := Attribute.of "repeat.for" (scope.forName.display ++ " of " ++ collection)
      return ⟨element templateTag [head] body.pieces, body.spreads⟩
    | .conditional =>
      let body ← joinBlocks "\n" children (← renderNodes (place.inside .conditional) children)
      let positive : Block :=
        ⟨element templateTag [.of "if.bind" (conditionText n)] body.pieces, body.spreads⟩
      return withBranch positive (← renderBranch (place.inside .otherwise) elseBranch)
    | .element =>
      let name ← name.textOr .missingOperation
      let selector := elementSelector name
      let emitted ← emitAll n place
      let attributes := propertyAttributes n
      if voidTags.contains name then
        return ⟨[.alone selector (attributes ++ emitted.attributes)], emitted.spreads⟩
      else
        let body ← joinBlocks "\n" children (← renderNodes (place.inside .children) children)
        return elementBlock selector attributes emitted body

def renderNodes (place : Place) : List Node → Attempt (List Block)
  | [] => .ok []
  | n :: rest => do
    let first ← renderNode place n
    return first :: (← renderNodes place rest)

def renderBranch (place : Place) : Option Node → Attempt (Option Block)
  | none => .ok none
  | some n => do return some (← renderNode place n)

end

/-- Sibling nodes in order with a separator between them. -/
def renderChildren (place : Place) (sep : Text) (nodes : List Node) : Attempt Block := do
  joinBlocks sep nodes (← renderNodes place nodes)

end ElementCompiler.Markup
