import ElementCompiler.Text.Basic

set_option autoImplicit false

/-!
Snippets are short pieces of code. They are cut into string literals in single or double quotes and
the plain runs between them; `mapPlain` changes the plain runs and leaves every literal as it is.
-/

namespace ElementCompiler.Snippet

inductive Segment where
  | literal (text : Text)
  | plain (text : Text)
  deriving DecidableEq, Repr

def Segment.text : Segment → Text
  | .literal text | .plain text => text

def Segment.isLiteral : Segment → Bool
  | .literal _ => true
  | .plain _ => false

def isQuote (c : CodePoint) : Bool := c = '\'' || c = '"'

/-- The rest of a literal after its opening quote, and what follows it. A literal ends after the
    same quote, after a newline, or with the text; a backslash takes the next character along. -/
def literalRest (quote : CodePoint) : Text → Text × Text
  | [] => ([], [])
  | c :: cs =>
    if c = quote then ([c], cs)
    else if c = '\\' then
      match cs with
      | [] => ([c], [])
      | d :: ds => (c :: d :: (literalRest quote ds).1, (literalRest quote ds).2)
    else if c = '\n' then ([c], cs)
    else (c :: (literalRest quote cs).1, (literalRest quote cs).2)

theorem literalRest_append (quote : CodePoint) (cs : Text) :
    (literalRest quote cs).1 ++ (literalRest quote cs).2 = cs := by
  fun_induction literalRest quote cs <;> simp_all

theorem literalRest_length (quote : CodePoint) (cs : Text) :
    (literalRest quote cs).2.length ≤ cs.length := by
  have h := congrArg List.length (literalRest_append quote cs)
  simp only [List.length_append] at h
  omega

theorem dropWhile_length_le {p : CodePoint → Bool} (cs : Text) :
    (cs.dropWhile p).length ≤ cs.length := by
  have h := congrArg List.length (List.takeWhile_append_dropWhile (p := p) (l := cs))
  simp only [List.length_append] at h
  omega

def isNotQuote (c : CodePoint) : Bool := !isQuote c

def segments : Text → List Segment
  | [] => []
  | c :: cs =>
    if isQuote c then
      .literal (c :: (literalRest c cs).1) :: segments (literalRest c cs).2
    else
      .plain (c :: cs.takeWhile isNotQuote) :: segments (cs.dropWhile isNotQuote)
termination_by cs => cs.length
decreasing_by
  · have := literalRest_length c cs
    simp only [List.length_cons]
    omega
  · have := dropWhile_length_le (p := isNotQuote) cs
    simp only [List.length_cons]
    omega

def Segment.map (f : Text → Text) : Segment → Text
  | .literal text => text
  | .plain text => f text

/-- The snippet with each plain run changed. -/
def mapPlain (f : Text → Text) (code : Text) : Text :=
  (segments code).flatMap (Segment.map f)

theorem flatMap_text_segments (code : Text) : (segments code).flatMap Segment.text = code := by
  fun_induction segments code with
  | case1 => rfl
  | case2 c cs h ih => simp [Segment.text, ih, literalRest_append]
  | case3 c cs h ih => simp [Segment.text, ih]

theorem text_ne_nil_of_mem_segments {code : Text} {s : Segment} (h : s ∈ segments code) :
    s.text ≠ [] := by
  fun_induction segments code with
  | case1 => simp at h
  | case2 c cs hq ih => rcases List.mem_cons.1 h with rfl | h <;> simp_all [Segment.text]
  | case3 c cs hq ih => rcases List.mem_cons.1 h with rfl | h <;> simp_all [Segment.text]

end ElementCompiler.Snippet
