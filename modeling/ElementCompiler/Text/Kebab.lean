import ElementCompiler.Text.Basic

set_option autoImplicit false

/-!
Kebab case. A text is read as words over ASCII letters and digits, everything else only separates;
the words are written in lower case with a hyphen between them. A run of capitals is one word,
digits after it included, except that its last capital belongs to the lower-case letters that
follow.
-/

namespace ElementCompiler.Text

/-- What has been read of the current word: nothing at all yet, nothing since the last word, a word
    with a small letter or digit, one capital, several capitals, several capitals and then
    digits. -/
inductive WordState where
  | start
  | between
  | small
  | capital
  | capitals
  | numbered
  deriving DecidableEq, Repr

/-- Whether `c` begins a word of its own. -/
def WordState.splitsAt (state : WordState) (c : Char) (nextIsLower : Bool) : Bool :=
  match state with
  | .start | .between => true
  | .small => c.isUpper
  | .capital | .capitals => c.isUpper && nextIsLower
  | .numbered => !c.isDigit

def WordState.after (state : WordState) (c : Char) (nextIsLower : Bool) : WordState :=
  if state.splitsAt c nextIsLower then if c.isUpper then .capital else .small
  else match state with
    | .capital | .capitals =>
      if c.isUpper then .capitals else if state = .capital then .small else .numbered
    | s => s

def WordState.leave : WordState → WordState
  | .start => .start
  | _ => .between

def headIsLower : Text → Bool
  | [] => false
  | c :: _ => c.is Char.isLower

def kebabFrom : WordState → Text → Text
  | _, [] => []
  | state, .half _ :: cs => kebabFrom state.leave cs
  | state, .char c :: cs =>
    if c.isAlphanum then
      let lower : Text := c.toLower :: kebabFrom (state.after c (headIsLower cs)) cs
      if state != .start && state.splitsAt c (headIsLower cs) then '-' :: lower else lower
    else kebabFrom state.leave cs

def kebab (s : Text) : Text := kebabFrom .start s

end ElementCompiler.Text
