import ElementCompiler.Json.Parser
import ElementCompiler.Markup.TemplateLiteral
import Mathlib.Tactic.Tauto

set_option autoImplicit false

/-!
Reading a template literal, by the lexical grammar of ECMAScript: a backtick ends it, a dollar sign
before a brace opens a substitution, a backslash begins an escape, and a carriage return counts as a
newline, together with a newline that follows it. An escaped text is read back as it was.
-/

namespace ElementCompiler.Markup

open Text

/-- What reading comes to: the cooked text up to the closing backtick or to a substitution, and what
    follows. -/
inductive TemplateReading where
  | closed (cooked rest : Text)
  | substitution (cooked rest : Text)
  | illegalEscape
  | unterminated
  deriving DecidableEq, Repr

def TemplateReading.prepend (s : Text) : TemplateReading → TemplateReading
  | closed cooked rest => closed (s ++ cooked) rest
  | substitution cooked rest => substitution (s ++ cooked) rest
  | illegalEscape => illegalEscape
  | unterminated => unterminated

namespace TemplateReading

@[simp] theorem prepend_nil (r : TemplateReading) : r.prepend [] = r := by
  cases r <;> rfl

@[simp] theorem prepend_prepend (r : TemplateReading) (s t : Text) :
    (r.prepend t).prepend s = r.prepend (s ++ t) := by
  cases r <;> simp [prepend]

@[simp] theorem prepend_closed (s cooked rest : Text) :
    (closed cooked rest).prepend s = closed (s ++ cooked) rest := rfl

end TemplateReading

/-- The code point whose number stands between braces, and how many characters that takes. -/
def bracedEscape? (s : Text) : Option (Text × Nat) := do
  let digits := s.takeWhile (· != .char '\x7d')
  let values ← digits.mapM Json.hexValue?
  let n := values.foldl (fun n d => n * 16 + d) 0
  if values = [] ∨ digits.length = s.length ∨ 0x110000 ≤ n then none
  else some ([.ofNumber n], digits.length + 1)

def endsCodeLine (c : CodePoint) : Bool :=
  c = '\n' || c = '\r' || c.number = 0x2028 || c.number = 0x2029

/-- What a character stands for that is escaped alone. -/
def singleEscape (c : CodePoint) : CodePoint :=
  match c with
  | .char 'b' => .ofNumber 8
  | .char 't' => '\t'
  | .char 'n' => '\n'
  | .char 'v' => .ofNumber 11
  | .char 'f' => .ofNumber 12
  | .char 'r' => '\r'
  | c => c

/-- What the characters after a backslash stand for, and how many of them there are. The end of a
    line stands for nothing. -/
def templateEscape? : Text → Option (Text × Nat)
  | [] => none
  | .char 'x' :: a :: b :: _ => do
    let high ← Json.hexValue? a
    let low ← Json.hexValue? b
    return ([.ofNumber (high * 16 + low)], 3)
  | .char 'u' :: .char '\x7b' :: braced => do
    let (x, n) ← bracedEscape? braced
    return (x, n + 2)
  | .char 'u' :: a :: b :: c :: d :: _ => do
    let n ← Json.hexValue4? a b c d
    return ([.ofNumber n], 5)
  | .char '\r' :: .char '\n' :: _ => some ([], 2)
  | c :: cs =>
    if endsCodeLine c then some ([], 1)
    else if c = 'x' ∨ c = 'u' then none
    else if c.is Char.isDigit then
      if c = '0' ∧ !(cs.take 1).any (·.is Char.isDigit) then some ([.ofNumber 0], 1) else none
    else some ([singleEscape c], 1)

/-- The rest of a literal after its opening backtick; `skip` counts the characters that were read
    with an earlier one. -/
def readTemplateFrom : (skip : Nat) → Text → TemplateReading
  | _, [] => .unterminated
  | skip + 1, _ :: cs => readTemplateFrom skip cs
  | 0, c :: cs =>
    if c = '`' then .closed [] cs
    else if c = '$' ∧ cs.head? = some (.char '\x7b') then .substitution [] cs.tail
    else if c = '\\' then
      match templateEscape? cs with
      | none => .illegalEscape
      | some (x, taken) => (readTemplateFrom taken cs).prepend x
    else if c = '\r' then
      (readTemplateFrom (if cs.head? = some (.char '\n') then 1 else 0) cs).prepend "\n"
    else (readTemplateFrom 0 cs).prepend [c]

/-- Reads the template literal at the start of the text, when one opens there. -/
def readTemplate? : Text → Option TemplateReading
  | .char '`' :: cs => some (readTemplateFrom 0 cs)
  | _ => none

example : readTemplate? "`a\\\\\\$\x7bb\\x41\\u\x7b42\x7d`;" =
    some (.closed "a\\$\x7bbAB" ";") := by decide

/-- How a character is escaped that stands before the given text. -/
def escapeBefore (cs : Text) (c : CodePoint) : Text :=
  if c = '\\' ∨ c = '`' ∨ (c = '$' ∧ cs.head? = some (.char '\x7b')) then ['\\', c] else [c]

/-- The escape of a text, character by character. -/
def escapeEach : Text → Text
  | [] => []
  | c :: cs => escapeBefore cs c ++ escapeEach cs

theorem replace_character (p : CodePoint) (new s : Text) :
    replace [p] new s = s.flatMap fun c => if c = p then new else [c] := by
  change replaceFrom [p] new 0 s = _
  induction s with
  | nil => rfl
  | cons c cs ih =>
    by_cases hc : c = p
    · simp [replaceFrom, startsWith, after?, hc, ih]
    · simp [replaceFrom, startsWith, after?, hc, Ne.symm hc, ih]

/-- What the first two replacements make of a character. -/
def escapeMark (c : CodePoint) : Text := if c = '\\' ∨ c = '`' then ['\\', c] else [c]

theorem replace_backtick (s : Text) :
    replace "`" "\\`" (replace "\\" "\\\\" s) = s.flatMap escapeMark := by
  change replace ['`'] "\\`" (replace ['\\'] "\\\\" s) = _
  rw [replace_character, replace_character, List.flatMap_assoc]
  congr 1
  funext c
  by_cases hslash : c = '\\'
  · simp [hslash, escapeMark, ofString]
  · by_cases htick : c = '`' <;> simp [hslash, htick, escapeMark, ofString]

theorem replaceFrom_substitution (new : Text) {c : CodePoint} {s : Text}
    (h : ¬ (c = '$' ∧ s.head? = some (.char '\x7b'))) :
    replaceFrom ['$', '\x7b'] new 0 (c :: s) = c :: replaceFrom ['$', '\x7b'] new 0 s := by
  have hstart : startsWith ['$', '\x7b'] (c :: s) = false := by
    cases s <;> simp_all [startsWith, after?, eq_comm]
  simp [replaceFrom, hstart]

theorem head?_flatMap_escapeMark (s : Text) :
    (s.flatMap escapeMark).head? = some (.char '\x7b') ↔ s.head? = some (.char '\x7b') := by
  cases s with
  | nil => rfl
  | cons c cs =>
    unfold escapeMark
    by_cases hslash : c = '\\'
    · simp [hslash]
    · by_cases htick : c = '`' <;> simp [hslash, htick]

theorem escapeTemplate_eq (s : Text) : escapeTemplate s = escapeEach s := by
  rw [escapeTemplate, replace_backtick]
  change replaceFrom ['$', '\x7b'] "\\$\x7b" 0 _ = _
  induction s with
  | nil => rfl
  | cons c cs ih =>
    rw [List.flatMap_cons, escapeEach, ← ih, escapeBefore, escapeMark]
    by_cases hmark : c = '\\' ∨ c = '`'
    · rw [if_pos hmark, if_pos (by tauto), List.cons_append, List.cons_append,
        replaceFrom_substitution _ (by simp), replaceFrom_substitution _ (by
          rintro ⟨rfl, -⟩
          simp at hmark)]
      rfl
    · by_cases hopen : c = '$' ∧ cs.head? = some (.char '\x7b')
      · -- the brace is written with the dollar sign before it, and is not read again
        obtain ⟨rfl, hbrace⟩ := hopen
        obtain ⟨ds, rfl⟩ := List.head?_eq_some_iff.mp hbrace
        have hmarks : List.flatMap escapeMark (.char '\x7b' :: ds) =
            .char '\x7b' :: ds.flatMap escapeMark := rfl
        rw [if_neg hmark, if_pos (by simp), hmarks, replaceFrom_substitution _ (by simp)]
        simp [replaceFrom, startsWith, after?, ofString]
      · rw [if_neg hmark, if_neg (by tauto), List.singleton_append,
          replaceFrom_substitution _ (by rwa [head?_flatMap_escapeMark])]
        rfl

theorem not_opens_escapeEach {s rest : Text} (hs : s.head? ≠ some (.char '\x7b'))
    (hrest : rest.head? ≠ some (.char '\x7b')) :
    (escapeEach s ++ rest).head? ≠ some (.char '\x7b') := by
  cases s with
  | nil => simpa [escapeEach] using hrest
  | cons c cs =>
    unfold escapeEach escapeBefore
    split <;> simp_all

theorem readTemplateFrom_escaped {c : CodePoint} (h : c = '\\' ∨ c = '`' ∨ c = '$') (s : Text) :
    readTemplateFrom 0 ('\\' :: c :: s) = (readTemplateFrom 0 s).prepend [c] := by
  have hescape : templateEscape? (c :: s) = some ([c], 1) := by
    rcases h with rfl | rfl | rfl <;> rfl
  rw [readTemplateFrom, if_neg (by simp), if_neg (by simp), if_pos rfl, hescape]
  rfl

theorem readTemplateFrom_plain {c : CodePoint} {s : Text} (hmark : c ≠ '\\' ∧ c ≠ '`')
    (hopen : ¬ (c = '$' ∧ s.head? = some (.char '\x7b'))) (hreturn : c ≠ '\r') :
    readTemplateFrom 0 (c :: s) = (readTemplateFrom 0 s).prepend [c] := by
  rw [readTemplateFrom, if_neg hmark.2, if_neg hopen, if_neg hmark.1, if_neg hreturn]

/-- An escaped text is read as the text itself, wherever it stands in a literal. -/
theorem readTemplateFrom_escapeTemplate {s rest : Text} (hs : .char '\r' ∉ s)
    (hrest : rest.head? ≠ some (.char '\x7b')) :
    readTemplateFrom 0 (escapeTemplate s ++ rest) = (readTemplateFrom 0 rest).prepend s := by
  rw [escapeTemplate_eq]
  induction s with
  | nil => simp [escapeEach]
  | cons c cs ih =>
    rw [List.mem_cons, not_or] at hs
    have hread := ih hs.2
    rw [escapeEach, escapeBefore]
    split
    next hmark =>
      have hstep := readTemplateFrom_escaped (by tauto : c = '\\' ∨ c = '`' ∨ c = '$')
        (escapeEach cs ++ rest)
      simp [hstep, hread]
    next hmark =>
      have hopen : ¬ (c = '$' ∧ (escapeEach cs ++ rest).head? = some (.char '\x7b')) :=
        fun ⟨hc, hnext⟩ => not_opens_escapeEach (by tauto) hrest hnext
      have hstep := readTemplateFrom_plain (by tauto) hopen (Ne.symm hs.1)
      simp [hstep, hread]

/-- The escape of a text undone: each backslash goes, and the character behind it stays. -/
def unescapeTemplate : Text → Text
  | .char '\\' :: c :: cs => c :: unescapeTemplate cs
  | c :: cs => c :: unescapeTemplate cs
  | [] => []

theorem unescapeTemplate_cons {c : CodePoint} (h : c ≠ '\\') (s : Text) :
    unescapeTemplate (c :: s) = c :: unescapeTemplate s := by
  rw [unescapeTemplate]
  rintro _ _ rfl
  exact absurd rfl h

theorem unescapeTemplate_escapeTemplate (s : Text) : unescapeTemplate (escapeTemplate s) = s := by
  rw [escapeTemplate_eq]
  induction s with
  | nil => rfl
  | cons c cs ih =>
    rw [escapeEach, escapeBefore]
    split
    next => exact congrArg (c :: ·) ih
    next hmark =>
      rw [List.singleton_append, unescapeTemplate_cons (by tauto), ih]

theorem readTemplateFrom_backtick (rest : Text) :
    readTemplateFrom 0 (.char '`' :: rest) = .closed [] rest := rfl

end ElementCompiler.Markup
