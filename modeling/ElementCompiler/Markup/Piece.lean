import ElementCompiler.Text.Literal

set_option autoImplicit false

/-!
Markup as a sequence of pieces: opening, closing and standalone tags with their attributes, and raw
text between them.
-/

namespace ElementCompiler.Markup

/-- An attribute of a tag; one without a value is its name alone. -/
structure Attribute where
  name : Text
  value : Option Text
  deriving DecidableEq, Repr

def Attribute.of (name value : Text) : Attribute := ⟨name, some value⟩

def Attribute.text (a : Attribute) : Text :=
  match a.value with
  | some value => " " ++ a.name ++ "=\"" ++ value ++ "\""
  | none => " " ++ a.name

def attributesText : List Attribute → Text
  | [] => ""
  | a :: rest => a.text ++ attributesText rest

inductive Piece where
  | raw (text : Text)
  | opening (tag : Text) (attributes : List Attribute)
  | closing (tag : Text)
  | alone (tag : Text) (attributes : List Attribute)
  deriving DecidableEq, Repr

def Piece.text : Piece → Text
  | .raw text => text
  | .opening tag attributes => "<" ++ tag ++ attributesText attributes ++ ">"
  | .closing tag => "</" ++ tag ++ ">"
  | .alone tag attributes => "<" ++ tag ++ attributesText attributes ++ " />"

def piecesText : List Piece → Text
  | [] => ""
  | p :: rest => p.text ++ piecesText rest

theorem attributesText_append (xs ys : List Attribute) :
    attributesText (xs ++ ys) = attributesText xs ++ attributesText ys := by
  induction xs with
  | nil => simp [attributesText]
  | cons x xs ih => simp [attributesText, ih, List.append_assoc]

theorem piecesText_append (xs ys : List Piece) :
    piecesText (xs ++ ys) = piecesText xs ++ piecesText ys := by
  induction xs with
  | nil => simp [piecesText]
  | cons x xs ih => simp [piecesText, ih, List.append_assoc]

/-- An element: its pieces between its opening and its closing tag. -/
def element (tag : Text) (attributes : List Attribute) (body : List Piece) : List Piece :=
  .opening tag attributes :: (body ++ [.closing tag])

/-- Groups of pieces one after the other with a separator between neighbours. -/
def joinPieces (sep : Text) : List (List Piece) → List Piece
  | [] => []
  | [ps] => ps
  | ps :: rest => ps ++ .raw sep :: joinPieces sep rest

theorem piecesText_joinPieces (sep : Text) (groups : List (List Piece)) :
    piecesText (joinPieces sep groups) = Text.join sep (groups.map piecesText) := by
  induction groups with
  | nil => rfl
  | cons g gs ih =>
    cases gs with
    | nil => rfl
    | cons h hs =>
      simp only [joinPieces, piecesText_append, piecesText, Piece.text, List.map_cons,
        Text.join_cons_cons, ih, List.append_assoc]

end ElementCompiler.Markup
