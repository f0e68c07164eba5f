import ElementCompiler.Text.Basic

set_option autoImplicit false

/-!
Literal pieces of text: whether a text starts with, ends with or holds another, replacing every
occurrence, splitting at every occurrence, and joining.
-/

namespace ElementCompiler.Text

/-- What follows `pat` when the text starts with it. -/
def after? : Text → Text → Option Text
  | [], s => some s
  | _ :: _, [] => none
  | p :: ps, c :: cs => if p = c then after? ps cs else none

def startsWith (pat s : Text) : Bool := (after? pat s).isSome

def endsWith (pat s : Text) : Bool := startsWith pat.reverse s.reverse

def occursIn (pat : Text) : Text → Bool
  | [] => pat.isEmpty
  | c :: cs => startsWith pat (c :: cs) || occursIn pat cs

/-- Writes `new` for every occurrence of the non-empty `pat`, from the left; `skip` counts the
    characters of an occurrence that are still to be passed over. -/
def replaceFrom (pat new : Text) : Nat → Text → Text
  | _, [] => []
  | skip + 1, _ :: cs => replaceFrom pat new skip cs
  | 0, c :: cs =>
    if startsWith pat (c :: cs) then new ++ replaceFrom pat new (pat.length - 1) cs
    else c :: replaceFrom pat new 0 cs

/-- Writes `new` before every character and at the end. -/
def surround (new s : Text) : Text := s.flatMap (fun c => new ++ [c]) ++ new

/-- Every occurrence of `pat` replaced by `new`; the empty text occurs around every character. -/
def replace (pat new s : Text) : Text :=
  if pat.isEmpty then surround new s else replaceFrom pat new 0 s

/-- The pieces between the occurrences of the non-empty `sep`; `piece` is the current one from its
    last character to its first. -/
def splitFrom (sep : Text) : Nat → Text → Text → List Text
  | _, piece, [] => [piece.reverse]
  | skip + 1, piece, _ :: cs => splitFrom sep skip piece cs
  | 0, piece, c :: cs =>
    if startsWith sep (c :: cs) then piece.reverse :: splitFrom sep (sep.length - 1) [] cs
    else splitFrom sep 0 (c :: piece) cs

def split (sep s : Text) : List Text := splitFrom sep 0 [] s

/-- The texts one after the other with `sep` between neighbours. -/
def join (sep : Text) : List Text → Text
  | [] => []
  | [s] => s
  | s :: rest => s ++ sep ++ join sep rest

@[simp] theorem join_nil (sep : Text) : join sep [] = [] := rfl

@[simp] theorem join_singleton (sep s : Text) : join sep [s] = s := rfl

theorem join_cons_cons (sep s t : Text) (rest : List Text) :
    join sep (s :: t :: rest) = s ++ sep ++ join sep (t :: rest) := rfl

theorem eq_append_of_after? {pat s rest : Text} (h : after? pat s = some rest) :
    s = pat ++ rest := by
  fun_induction after? pat s with
  | case1 s => simpa using h
  | case2 => simp at h
  | case3 ps c cs ih => simp [ih h]
  | case4 => simp at h

@[simp] theorem after?_append (pat rest : Text) : after? pat (pat ++ rest) = some rest := by
  induction pat with
  | nil => cases rest <;> rfl
  | cons p ps ih => simp [after?, ih]

end ElementCompiler.Text
