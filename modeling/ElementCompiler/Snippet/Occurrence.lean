import ElementCompiler.Text.Basic
import ElementCompiler.Text.Class
import ElementCompiler.Text.Literal

set_option autoImplicit false

/-!
Occurrences of a name in a snippet: where it stands as a whole identifier that is not accessed as a
member. The characters before a place are given nearest first.
-/

namespace ElementCompiler.Snippet

open Text

/-- A character that continues a name. -/
def continuesName (c : CodePoint) : Bool := c.is isMember

/-- A character after which no name begins. -/
def isJoined (c : CodePoint) : Bool := continuesName c || c == '.'

def headIs (p : CodePoint → Bool) : Text → Bool
  | [] => false
  | c :: _ => p c

/-- What follows the name when it occurs here. -/
def occursAt? (name before rest : Text) : Option (Text) :=
  if headIs isJoined before then none
  else match after? name rest with
    | none => none
    | some after => if headIs continuesName after then none else some after

/-- Replaces every occurrence of the name by what `written` says of the characters around it; `skip`
    counts the characters of an occurrence that are still to be passed over. The empty name occurs
    between characters that no identifier joins. -/
def substituteFrom (name : Text) (written : Text → Text → Text) :
    Nat → Text → Text → Text
  | skip + 1, before, c :: cs => substituteFrom name written skip (c :: before) cs
  | _ + 1, _, [] => []
  | 0, before, [] => ((occursAt? name before []).map (written before)).getD []
  | 0, before, c :: cs =>
    match occursAt? name before (c :: cs) with
    | none => c :: substituteFrom name written 0 (c :: before) cs
    | some after =>
      written before after ++
        (if name.isEmpty then c :: substituteFrom name written 0 (c :: before) cs
          else substituteFrom name written (name.length - 1) (c :: before) cs)

def substitute (name : Text) (written : Text → Text → Text)
    (code : Text) : Text := substituteFrom name written 0 [] code

/-- The places where the name occurs, from `at` on. -/
def placesFrom (name : Text) : Nat → Nat → Text → Text → List Nat
  | place, skip + 1, before, c :: cs => placesFrom name (place + 1) skip (c :: before) cs
  | _, _ + 1, _, [] => []
  | place, 0, before, [] => if (occursAt? name before []).isSome then [place] else []
  | place, 0, before, c :: cs =>
    if (occursAt? name before (c :: cs)).isSome then
      place :: placesFrom name (place + 1) (name.length - 1) (c :: before) cs
    else placesFrom name (place + 1) 0 (c :: before) cs

/-- Start and end of each occurrence of the name, as numbers of characters. -/
def spans (name code : Text) : List (Nat × Nat) :=
  (placesFrom name 0 0 [] code).map fun p => (p, p + name.length)

/-- Whether the name occurs at all. -/
def uses (code name : Text) : Bool := !(placesFrom name 0 0 [] code).isEmpty

/-- Whether the reversed text ends in white space after one of the words, which stands alone. -/
def endsInWord (words : List Text) (before : Text) : Bool :=
  headIs (·.is isBlank) before &&
    words.any fun w =>
      match after? w.reverse (before.dropWhile (·.is isBlank)) with
      | some rest => !headIs (·.is isWord) rest
      | none => false

/-- The words that declare the name after them. -/
def declarationWords : List Text :=
  ["const", "let", "var", "function", "class", "get", "set", "async"]

def isNotParen (c : CodePoint) : Bool := c != '(' && c != ')'

def isTypeChar (c : CodePoint) : Bool := c != '\x7b' && c != ';'

/-- A parameter list, a type perhaps, and an opening brace. -/
def isMethodHead (after : Text) : Bool :=
  match after.dropWhile (·.is isBlank) with
  | .char '(' :: rest =>
    match rest.dropWhile isNotParen with
    | .char ')' :: rest =>
      match rest.dropWhile (·.is isBlank) with
      | .char '\x7b' :: _ => true
      | .char ':' :: rest =>
        headIs isTypeChar rest && headIs (· == .char '\x7b') (rest.dropWhile isTypeChar)
      | _ => false
    | _ => false
  | _ => false

/-- A colon that is not doubled. -/
def isKeyHead (after : Text) : Bool :=
  match after.dropWhile (·.is isBlank) with
  | .char ':' :: rest => !headIs (· == .char ':') rest
  | _ => false

/-- The end of an opening brace or a comma. -/
def isKeyTail (before : Text) : Bool :=
  headIs (fun c => c == '\x7b' || c == ',') (before.dropWhile (·.is isBlank))

/-- Whether a name here is given a meaning rather than used: after a declaring word, as the head of
    a method that begins the run, or as the key of an object. -/
def isBindingPosition (before after : Text) : Bool :=
  endsInWord declarationWords before ||
    (before.all (·.is isBlank) && isMethodHead after) ||
    (isKeyHead after && isKeyTail before)

end ElementCompiler.Snippet
