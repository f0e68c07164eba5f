import ElementCompiler.CommandLine.Word

set_option autoImplicit false

/-!
Reading a command line from left to right: options take effect in the order in which they are
given, one operand is wanted, and words that have no place are refused only after all others have
been read.
-/

namespace ElementCompiler.CommandLine

/-- Why nothing is run. -/
inductive Halt where
  /-- Help is asked for, and this is the page. -/
  | help (page : Text)
  | version
  | rejected
  deriving DecidableEq, Repr

/-- The options of a command and what they do to its settings. The operand is one word, or with
    `takesRest` one word and whatever follows it. An option without a value is given none. -/
structure Grammar (α σ : Type) where
  options : List (Spelling α)
  takesRest : Bool
  applyOption : α → Option Text → σ → Except Halt σ
  applyOperand : Text → List Text → σ → Except Halt σ

/-- The options that one word gives, each with its value; the last may want the next word as its
    value. -/
structure Bundle (α : Type) where
  given : List (α × Option Text)
  wanting : Option α

/-- How far the operand has come. -/
inductive Operand where
  | awaited
  /-- It was the word before. -/
  | justTaken
  | taken
  deriving DecidableEq, Repr

structure Progress (σ : Type) where
  settings : σ
  operand : Operand
  stray : Bool

variable {α σ : Type}

/-- A value as an option takes it: two dashes alone are no value. -/
def value? (s : Text) : Option Text := if s = "--" then none else some s

def Bundle.cons (o : α) (b : Bundle α) : Bundle α := { b with given := (o, none) :: b.given }

/-- An option with nothing attached to it. -/
def Bundle.single (o : Spelling α) : Bundle α :=
  if o.takesValue then ⟨[], some o.meaning⟩ else ⟨[(o.meaning, none)], none⟩

/-- The options in a word that has more than the name of its first option. What is attached is the
    value of an option that takes one; after a short option without a value it is further short
    options. -/
def bundle? (options : List (Spelling α)) : Spelling α → Text → Option (Bundle α)
  | o, [] => if o.takesValue then some ⟨[(o.meaning, some [])], none⟩ else none
  | o, c :: rest =>
    if o.takesValue then some ⟨[(o.meaning, value? (c :: rest))], none⟩
    else if o.isLong then none
    else match named? options ['-', c], rest with
      | none, _ => none
      | some next, [] => some ((Bundle.single next).cons o.meaning)
      | some next, d :: more => (bundle? options next (d :: more)).map (.cons o.meaning)

def Grammar.bundle? (g : Grammar α σ) (o : Spelling α) : Option Text → Option (Bundle α)
  | some attached => CommandLine.bundle? g.options o attached
  | none => some (.single o)

def Grammar.applyAll (g : Grammar α σ) : List (α × Option Text) → σ → Except Halt σ
  | [], s => .ok s
  | (o, value) :: rest, s => do g.applyAll rest (← g.applyOption o value s)

/-- The settings after a bundle, and whether the word that follows it has been used as a value. -/
def Grammar.applyBundle (g : Grammar α σ) (b : Bundle α) (next : Option (Word α)) (s : σ) :
    Except Halt (σ × Bool) :=
  match b.wanting, next with
  | none, _ => do return (← g.applyAll b.given s, false)
  | some o, some ⟨value, .plain⟩ => do
    return (← g.applyAll (b.given ++ [(o, some value)]) s, true)
  | some _, _ => .error .rejected

/-- Reads the words; `skip` says that the first of them has been used already. -/
def Grammar.consume (g : Grammar α σ) : Bool → List (Word α) → Progress σ →
    Except Halt (Progress σ)
  | _, [], p => .ok p
  | true, _ :: rest, p => g.consume false rest p
  | false, ⟨text, role⟩ :: rest, p =>
    match role, p.operand with
    | .option o attached, operand =>
      match g.bundle? o attached with
      | none => .error .rejected
      | some b => do
        let (settings, skip) ← g.applyBundle b rest.head? p.settings
        g.consume skip rest
          ⟨settings, if operand = .awaited then .awaited else .taken, p.stray⟩
    | .unknown, operand =>
      g.consume false rest
        ⟨p.settings, if operand = .awaited then .awaited else .taken, true⟩
    | .terminator, .awaited =>
      if g.takesRest then do
        return ⟨← g.applyOperand text (rest.map Word.text) p.settings, .taken, p.stray⟩
      else g.consume false rest { p with stray := p.stray || rest.isEmpty }
    | .plain, .awaited => do
      if g.takesRest then
        return ⟨← g.applyOperand text (rest.map Word.text) p.settings, .taken, p.stray⟩
      else
        let settings ← g.applyOperand text [] p.settings
        g.consume false rest ⟨settings, .justTaken, p.stray⟩
    | .terminator, .justTaken => g.consume false rest ⟨p.settings, .taken, p.stray⟩
    | _, _ => g.consume false rest ⟨p.settings, .taken, true⟩

/-- The settings that the words make of the initial ones. -/
def Grammar.read (g : Grammar α σ) (words : List Text) (s : σ) : Except Halt σ :=
  match words? g.options words with
  | none => .error .rejected
  | some ws => do
    let p ← g.consume false ws ⟨s, .awaited, false⟩
    if p.stray || p.operand = .awaited then .error .rejected
    else return p.settings

end ElementCompiler.CommandLine
