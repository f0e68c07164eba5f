import ElementCompiler.Proofs.Component.Refs
import ElementCompiler.Proofs.Snippet.LiteralPasses
import ElementCompiler.Proofs.Snippet.Relocated

set_option autoImplicit false

/-!
The literals of a snippet whose refs are relocated. A field is put for the name of a ref outside literals
only, but `.current` is dropped wherever a name stands before it, in a literal too. Since that only
shortens a text, no later ref brings back what an earlier one took: the literals are kept exactly when
none of them reads the current value of a ref.
-/

namespace ElementCompiler.Snippet

open Attempt Text

section Shortening

variable {pat new before s : Text}

theorem Rewritten.eq_or_shorter {writes : Text → Text → Prop} {t : Text} (h : Rewritten writes before s t)
    (hwrites : ∀ old new, writes old new → new.length < old.length) : t = s ∨ t.length < s.length := by
  induction h with
  | nil => exact .inl rfl
  | copy _ ih => exact ih.imp (congrArg _) Nat.succ_lt_succ
  | write _ _ hnew _ ih =>
    have hle := ih.elim (fun h => (congrArg List.length h).le) Nat.le_of_lt
    rw [List.length_append, List.length_append]
    exact .inr (Nat.add_lt_add_of_lt_of_le (hwrites _ _ hnew) hle)

theorem substituteFrom_eq_or_shorter (hshort : new.length < pat.length) (before s : Text) :
    substituteFrom pat (fun _ _ => new) 0 before s = s ∨
      (substituteFrom pat (fun _ _ => new) 0 before s).length < s.length :=
  (rewritten_substituteFrom pat _ before s).eq_or_shorter fun _ _ ⟨hold, _, _, hnew⟩ => hold ▸ hnew ▸ hshort

theorem length_substituteFrom_le (hshort : new.length < pat.length) (before s : Text) :
    (substituteFrom pat (fun _ _ => new) 0 before s).length ≤ s.length :=
  (substituteFrom_eq_or_shorter hshort before s).elim (fun h => (congrArg List.length h).le) Nat.le_of_lt

theorem occursAt?_of_unchanged (hshort : new.length < pat.length)
    (h : substituteFrom pat (fun _ _ => new) 0 before s = s) : occursAt? pat before s = none := by
  cases hoccurs : occursAt? pat before s with
  | none => rfl
  | some after =>
    obtain ⟨rfl, -⟩ := of_occursAt? hoccurs
    have hne : pat ≠ [] := List.ne_nil_of_length_pos (Nat.zero_lt_of_lt hshort)
    have hrest := length_substituteFrom_le hshort (pat.reverse ++ before) after
    have hlength := congrArg List.length h
    rw [substituteFrom_some hne _ hoccurs, List.length_append, List.length_append] at hlength
    omega

theorem placesFrom_of_unchanged (hshort : new.length < pat.length) (place : Nat)
    (h : substituteFrom pat (fun _ _ => new) 0 before s = s) : placesFrom pat place 0 before s = [] := by
  have hnone := occursAt?_of_unchanged hshort h
  induction s generalizing place before with
  | nil => rw [placesFrom, hnone]; rfl
  | cons c cs ih =>
    rw [substituteFrom_of_none _ hnone] at h
    have hrest := (List.cons.inj h).2
    rw [placesFrom, hnone]
    exact ih _ hrest (occursAt?_of_unchanged hshort hrest)

/-- A pass that writes less than it reads changes a text exactly when it finds something there. -/
theorem substitute_eq_self_iff (hshort : new.length < pat.length) :
    substitute pat (fun _ _ => new) s = s ↔ uses s pat = false :=
  ⟨fun h => by rw [uses, placesFrom_of_unchanged hshort 0 h]; rfl, substitute_of_unused _⟩

end Shortening

section Refs

variable {fields : List (Text × Text)} {lead name field code : Text}

/-- A text with `.current` dropped behind the name of each ref, one ref after the other. -/
def withoutCurrent (fields : List (Text × Text)) (s : Text) : Text :=
  fields.foldl (fun s f => substitute (f.1 ++ ".current") (fun _ _ => f.1) s) s

theorem length_current (name : Text) : name.length < (name ++ ".current").length := by
  rw [List.length_append]
  exact Nat.lt_add_of_pos_right (by decide)

theorem length_withoutCurrent_le (fields : List (Text × Text)) (s : Text) :
    (withoutCurrent fields s).length ≤ s.length := by
  induction fields generalizing s with
  | nil => exact Nat.le_refl _
  | cons f fields ih => exact (ih _).trans (length_substituteFrom_le (length_current f.1) [] s)

/-- A text keeps its length only if no ref takes a part of it. -/
theorem withoutCurrent_eq_self_iff {s : Text} :
    withoutCurrent fields s = s ↔ ∀ f ∈ fields, uses s (f.1 ++ ".current") = false := by
  induction fields generalizing s with
  | nil => exact ⟨fun _ f hf => absurd hf List.not_mem_nil, fun _ => rfl⟩
  | cons f fields ih =>
    rw [List.forall_mem_cons, ← substitute_eq_self_iff (length_current f.1), ← ih]
    constructor
    · intro h
      rcases substituteFrom_eq_or_shorter (length_current f.1) [] s with hsame | hshorter
      · refine ⟨hsame, ?_⟩
        conv_rhs => rw [← h]
        exact congrArg (withoutCurrent fields) hsame.symm
      · -- what the first ref took is not given back by the others
        have hle := length_withoutCurrent_le fields (substitute (f.1 ++ ".current") (fun _ _ => f.1) s)
        have hlength : (withoutCurrent fields (substitute (f.1 ++ ".current") (fun _ _ => f.1) s)).length =
            s.length := congrArg List.length h
        exact absurd (hlength ▸ hle) (Nat.not_le_of_lt hshorter)
    · rintro ⟨hfirst, hrest⟩
      exact (congrArg (withoutCurrent fields) hfirst).trans hrest

theorem map_withoutCurrent_eq_self_iff {texts : List Text} : texts.map (withoutCurrent fields) = texts ↔
    ∀ f ∈ fields, ∀ s ∈ texts, uses s (f.1 ++ ".current") = false := by
  have hsame : texts.map (withoutCurrent fields) = texts ↔ ∀ s ∈ texts, withoutCurrent fields s = s := by
    conv_lhs => rhs; rw [← List.map_id texts]
    exact List.map_inj_left
  rw [hsame]
  refine (forall₂_congr fun s _ => withoutCurrent_eq_self_iff).trans ?_
  exact ⟨fun h f hf s hs => h s hs f hf, fun h s hs f hf => h f hf s hs⟩

theorem isNotQuote_field (hname : IsName name) (hfield : field = name ∨ field = "_" ++ name) :
    ∀ c ∈ field, isNotQuote c = true := by
  have hplain : ∀ c ∈ name, isNotQuote c = true := fun c hc => isNotQuote_of_continuesName (hname.2 c hc)
  rcases hfield with rfl | rfl
  · exact hplain
  · exact List.forall_mem_append.mpr ⟨by decide, hplain⟩

theorem literals_relocateRef (hlead : ∀ c ∈ lead, isNotQuote c = true) (hname : IsName name)
    (hfield : ∀ c ∈ field, isNotQuote c = true) (code : Text) :
    ∃ moved, relocateRef lead name field (.str code) = .ok moved ∧
      literals moved = (literals code).map (substitute (name ++ ".current") fun _ _ => name) := by
  have hslash : CodePoint.char '\\' ∉ name := fun hmem => absurd (hname.2 _ hmem) (by decide)
  have hempty : name.isEmpty = false := by simpa using hname.1
  refine ⟨_, relocateRef_eq hslash lead field code, ?_⟩
  rw [hempty, if_neg Bool.false_ne_true,
    literals_replaceOne (fun _ => List.forall_mem_append.mpr ⟨hlead, hfield⟩),
    (joinsWords_current hname).literals_substitute]

theorem literals_relocateRefs (hlead : ∀ c ∈ lead, isNotQuote c = true)
    (hfields : ∀ f ∈ fields, IsName f.1 ∧ ∀ c ∈ f.2, isNotQuote c = true) (code : Text) :
    ∃ moved, relocateRefs fields lead (.str code) = .ok (.str moved) ∧
      literals moved = (literals code).map (withoutCurrent fields) := by
  have heach : ∃ moved, relocateEach lead fields (.str code) = .ok (.str moved) ∧
      literals moved = (literals code).map (withoutCurrent fields) := by
    induction fields generalizing code with
    | nil => exact ⟨code, rfl, (List.map_id _).symm⟩
    | cons f fields ih =>
      rw [List.forall_mem_cons] at hfields
      obtain ⟨first, hfirst, hdropped⟩ := literals_relocateRef hlead hfields.1.1 hfields.1.2 code
      obtain ⟨moved, hmoved, hrest⟩ := ih hfields.2 first
      refine ⟨moved, ?_, ?_⟩
      · rw [relocateEach, hfirst, ok_bind, hmoved]
      · rw [hrest, hdropped, List.map_map]
        rfl
  rw [relocateRefs]
  split
  next => exact heach
  next hgiven =>
    obtain rfl : code = [] := by simpa [Json.isGiven] using hgiven
    exact ⟨[], rfl, by rw [literals_nil]; rfl⟩

/-- The literals of a snippet after its refs are relocated are those it had, without the `.current` of the
    refs they read; so they are the same exactly when none reads the current value of a ref. -/
theorem relocated_literals (hlead : ∀ c ∈ lead, isNotQuote c = true)
    (hfields : ∀ f ∈ fields, IsName f.1 ∧ ∀ c ∈ f.2, isNotQuote c = true) (code : Text) :
    ∃ moved, relocateRefs fields lead (.str code) = .ok (.str moved) ∧
      literals moved = (literals code).map (withoutCurrent fields) ∧
      (literals moved = literals code ↔
        ∀ f ∈ fields, ∀ l ∈ literals code, uses l (f.1 ++ ".current") = false) := by
  obtain ⟨moved, hmoved, hliterals⟩ := literals_relocateRefs hlead hfields code
  refine ⟨moved, hmoved, hliterals, ?_⟩
  rw [hliterals]
  exact map_withoutCurrent_eq_self_iff

theorem relocated_literals_count :
    (∀ c ∈ ofString "this.", isNotQuote c = true) ∧
      (∀ f ∈ [(ofString "count", ofString "_count")], IsName f.1 ∧ ∀ c ∈ f.2, isNotQuote c = true) ∧
      ∃ moved, relocateRefs [("count", "_count")] "this." (.str "log('count', count.current)") = .ok (.str moved) ∧
        literals moved = literals "log('count', count.current)" ∧
        literals "log('count', count.current)" = ["'count'"] := by
  have hlead : ∀ c ∈ ofString "this.", isNotQuote c = true := by decide
  have hfields : ∀ f ∈ [(ofString "count", ofString "_count")], IsName f.1 ∧ ∀ c ∈ f.2, isNotQuote c = true := by
    unfold IsName
    decide
  have hliterals : literals "log('count', count.current)" = ["'count'"] := by decide +kernel
  obtain ⟨moved, hmoved, -, hsame⟩ := relocated_literals hlead hfields "log('count', count.current)"
  refine ⟨hlead, hfields, moved, hmoved, hsame.mpr ?_, hliterals⟩
  rw [hliterals]
  decide

/-- A literal that reads like the current value of a ref loses its `.current`. -/
theorem current_dropped_in_literal :
    relocateRefs [("count", "_count")] "this." (.str "log('count.current', count.current)") =
        .ok (.str "log('count', this._count)") ∧
      literals "log('count.current', count.current)" = ["'count.current'"] ∧
      literals "log('count', this._count)" = ["'count'"] := by
  have hmoved : replaceOne "this._count" "count"
      (substitute "count.current" (fun _ _ => "count") "log('count.current', count.current)") =
        "log('count', this._count)" := by decide +kernel
  refine ⟨?_, by decide +kernel, by decide +kernel⟩
  rw [← hmoved]
  rfl

end Refs

end ElementCompiler.Snippet
