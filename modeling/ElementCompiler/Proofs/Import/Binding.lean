import ElementCompiler.Proofs.Component.Parts
import ElementCompiler.Proofs.Import.Statement
import ElementCompiler.Proofs.Snippet.SinglePass

set_option autoImplicit false

/-!
The names that an import statement binds, as they are read off its text: each is the last word of a
clause in front of the path. A statement with one default and one namespace at most binds every
local name of its import.
-/

namespace ElementCompiler.Import

open Attempt Text Snippet

/-- A clause of an import statement ends here: with all clauses, at a comma, at the closing brace. -/
def EndsClause (rest : Text) : Prop :=
  rest = [] ∨ ∃ mark ∈ [Text.ofString ",", " \x7d"], mark <+: rest

theorem EndsClause.append {a b : Text} (ha : EndsClause a) (hb : EndsClause b) :
    EndsClause (a ++ b) := by
  rcases ha with rfl | ⟨mark, hmark, ha⟩
  · exact hb
  · exact .inr ⟨mark, hmark, ha.trans (List.prefix_append a b)⟩

/-- The statement imports something under the name: among its clauses, in front of the quoted path,
    the name is the last word of one. -/
def Binds (statement name : Text) : Prop :=
  IsName name ∧ ∃ before after quote path, isQuote quote = true ∧
    statement = "import " ++ (before ++ name ++ after) ++ " from " ++ quote :: path ∧
    (before = [] ∨ ∃ start, before = start ++ " ") ∧ EndsClause after

theorem Binds.occursIn {statement name : Text} (h : Binds statement name) :
    occursIn name statement = true := by
  obtain ⟨_, before, after, quote, path, _, rfl, _⟩ := h
  have hinfix : ∀ start rest : Text, Text.occursIn name (start ++ (name ++ rest)) = true := by
    intro start rest
    induction start with
    | nil =>
      rw [List.nil_append, Text.occursIn.eq_def]
      split
      next heq => rw [(List.append_eq_nil_iff.mp heq).1]; rfl
      next c cs heq => rw [← heq, startsWith_append, Bool.true_or]
    | cons c cs ih => rw [List.cons_append, Text.occursIn, ih, Bool.or_true]
  simpa only [List.append_assoc] using hinfix ("import " ++ before) (after ++ (" from " ++ quote :: path))

section Statement

variable {imports : Entries Text} {target s : Text}

/-- At most one default and one namespace, as many as a statement can import. -/
def IsRenderable (d : DeclaredImport) : Prop :=
  (d.imports.filter fun e => isDefault e.2).length ≤ 1 ∧
    (d.imports.filter fun e => isStar e.2).length ≤ 1

theorem clauses_eq_ok {imports : Entries Json Key} {cs : List Text} (h : clauses imports = .ok cs) :
    ∃ defaults stars named, cs = defaults ++ stars ++ named ∧
      ((Entries.keys (imports.filter fun e => isDefault e.2)).take 1).mapM
        (fun name => (Json.ofKey name).textOr .wrongKind) = .ok defaults ∧
      stars = ((Entries.keys (imports.filter fun e => isStar e.2)).take 1).map
        (fun name => Text.ofString "* as " ++ name.display) ∧
      namedClauses imports = .ok named := by
  rw [clauses] at h
  obtain ⟨named, hnamed, h⟩ := bind_eq_ok.mp h
  obtain ⟨defaults, hdefaults, h⟩ := bind_eq_ok.mp h
  exact ⟨defaults, _, named, (Except.ok.inj h).symm, hdefaults, rfl, hnamed⟩

end Statement
end ElementCompiler.Import
