import ElementCompiler.Text.Blank
import ElementCompiler.Text.Literal
import Mathlib.Data.List.Basic

set_option autoImplicit false

/-!
Splitting a text at a separator and joining lines. A piece that ends with a character foreign to the
separator is cut off whole when the separator does not occur in it.
-/

namespace ElementCompiler.Text

section Separator

variable {sep : Text}

theorem startsWith_append (sep s : Text) : startsWith sep (sep ++ s) = true := by
  rw [startsWith, after?_append]
  rfl

/-- No occurrence reaches over a character that the separator does not have. -/
theorem startsWith_append_cons {c : CodePoint} (hc : c ∉ sep) (a b : Text) :
    startsWith sep (a ++ c :: b) = startsWith sep a := by
  induction sep generalizing a with
  | nil => cases a <;> rfl
  | cons p ps ih =>
    have hps : c ∉ ps := fun h => hc (List.mem_cons_of_mem p h)
    have hpc : p ≠ c := by
      rintro rfl
      exact hc List.mem_cons_self
    cases a with
    | nil => simp [startsWith, after?, hpc]
    | cons d ds =>
      have hstep := ih hps ds
      by_cases hpd : p = d
      · subst hpd
        simpa [startsWith, after?] using hstep
      · simp [startsWith, after?, hpd]

theorem startsWith_nil (hne : sep ≠ []) : startsWith sep [] = false := by
  obtain ⟨p, ps, rfl⟩ := List.exists_cons_of_ne_nil hne
  rfl

theorem occursIn_nil (hne : sep ≠ []) : occursIn sep [] = false := by
  obtain ⟨p, ps, rfl⟩ := List.exists_cons_of_ne_nil hne
  rfl

theorem occursIn_character {p : CodePoint} {s : Text} (h : p ∉ s) : occursIn [p] s = false := by
  induction s with
  | nil => rfl
  | cons c cs ih =>
    rw [List.mem_cons, not_or] at h
    simp [occursIn, startsWith, after?, h.1, ih h.2]

theorem occursIn_append_cons (hne : sep ≠ []) {c : CodePoint} (hc : c ∉ sep) (a b : Text) :
    occursIn sep (a ++ c :: b) = (occursIn sep a || occursIn sep b) := by
  induction a with
  | nil =>
    have hstart := startsWith_append_cons hc [] b
    rw [List.nil_append] at hstart
    rw [List.nil_append, occursIn_nil hne, occursIn, hstart, startsWith_nil hne]
  | cons d ds ih =>
    have hstart := startsWith_append_cons hc (d :: ds) b
    rw [List.cons_append] at hstart ⊢
    rw [occursIn, occursIn, hstart, ih, Bool.or_assoc]

theorem splitFrom_skip (run piece rest : Text) :
    splitFrom sep run.length piece (run ++ rest) = splitFrom sep 0 piece rest := by
  induction run with
  | nil => rfl
  | cons c cs ih => rw [List.length_cons, List.cons_append, splitFrom, ih]

theorem splitFrom_sep (hne : sep ≠ []) (piece rest : Text) :
    splitFrom sep 0 piece (sep ++ rest) = piece.reverse :: splitFrom sep 0 [] rest := by
  obtain ⟨p, ps, rfl⟩ := List.exists_cons_of_ne_nil hne
  have hstart := startsWith_append (p :: ps) rest
  have hskip : splitFrom (p :: ps) ps.length [] (ps ++ rest) = splitFrom (p :: ps) 0 [] rest :=
    splitFrom_skip ps [] rest
  rw [List.cons_append] at hstart ⊢
  rw [splitFrom, if_pos hstart]
  exact congrArg (piece.reverse :: ·) hskip

theorem splitFrom_of_clear {s : Text} (h : occursIn sep s = false) (piece : Text) :
    splitFrom sep 0 piece s = [piece.reverse ++ s] := by
  induction s generalizing piece with
  | nil => simp [splitFrom]
  | cons c cs ih =>
    rw [occursIn, Bool.or_eq_false_iff] at h
    rw [splitFrom, if_neg (by simp [h.1]), ih h.2]
    simp

theorem splitFrom_piece (hne : sep ≠ []) {c : CodePoint} (hc : c ∉ sep) {a : Text}
    (h : occursIn sep a = false) (piece rest : Text) :
    splitFrom sep 0 piece (a ++ c :: (sep ++ rest)) =
      (piece.reverse ++ a ++ [c]) :: splitFrom sep 0 [] rest := by
  induction a generalizing piece with
  | nil =>
    have hstart := startsWith_append_cons hc [] (sep ++ rest)
    rw [List.nil_append, startsWith_nil hne] at hstart
    rw [List.nil_append, splitFrom, if_neg (by simp [hstart]), splitFrom_sep hne]
    simp
  | cons d ds ih =>
    rw [occursIn, Bool.or_eq_false_iff] at h
    have hstart := startsWith_append_cons hc (d :: ds) (sep ++ rest)
    rw [h.1, List.cons_append] at hstart
    rw [List.cons_append, splitFrom, if_neg (by simp [hstart]), ih h.2]
    simp

/-- A text without the separator is one piece. -/
theorem split_of_clear {s : Text} (h : occursIn sep s = false) : split sep s = [s] :=
  splitFrom_of_clear h []

/-- A text without the separator, up to a character foreign to it, is the first piece. -/
theorem split_append (hne : sep ≠ []) {c : CodePoint} (hc : c ∉ sep) {a : Text}
    (h : occursIn sep (a ++ [c]) = false) (rest : Text) :
    split sep (a ++ [c] ++ (sep ++ rest)) = (a ++ [c]) :: split sep rest := by
  rw [occursIn_append_cons hne hc, Bool.or_eq_false_iff] at h
  have hpiece := splitFrom_piece hne hc h.1 [] rest
  rw [List.append_assoc, List.singleton_append]
  exact hpiece

end Separator

theorem split_ne_nil (sep s : Text) : split sep s ≠ [] := by
  have hfrom : ∀ skip piece, splitFrom sep skip piece s ≠ [] := by
    induction s with
    | nil => intro skip piece; simp [splitFrom]
    | cons c cs ih =>
      intro skip piece
      cases skip with
      | succ skip => exact ih skip piece
      | zero =>
        rw [splitFrom]
        split
        · simp
        · exact ih 0 _
  exact hfrom 0 []

def unlines (texts : List Text) : Text := texts.flatMap (· ++ [.char '\n'])

theorem join_append_cons (texts : List Text) (s : Text) (rest : List Text) :
    join "\n" (texts ++ s :: rest) = unlines texts ++ join "\n" (s :: rest) := by
  induction texts with
  | nil => rfl
  | cons t ts ih =>
    have hcons : ∀ us : List Text, us ≠ [] → join "\n" (t :: us) = t ++ .char '\n' :: join "\n" us := by
      intro us hus
      obtain ⟨u, us, rfl⟩ := List.exists_cons_of_ne_nil hus
      rw [join_cons_cons]
      simp [ofString]
    rw [List.cons_append, hcons _ (by simp), ih]
    simp [unlines]

theorem join_ne_nil {s : Text} {texts : List Text} (h : s ∈ texts) (hne : s ≠ []) : join "\n" texts ≠ [] := by
  obtain ⟨before, after, rfl⟩ := List.append_of_mem h
  rw [join_append_cons]
  cases after with
  | nil => simp [hne]
  | cons next after => simp [join_cons_cons, hne]

theorem length_join (sep : Text) (texts : List Text) :
    (join sep texts).length = texts.flatten.length + (texts.length - 1) * sep.length := by
  induction texts with
  | nil => simp
  | cons t texts ih =>
    cases texts with
    | nil => simp
    | cons t' texts =>
      rw [join_cons_cons]
      simp only [List.length_append, List.length_cons, List.flatten_cons, Nat.add_sub_cancel,
        Nat.add_mul, Nat.one_mul] at ih ⊢
      omega

theorem unlines_eq_join {texts : List Text} (hne : texts ≠ []) :
    unlines texts = join "\n" texts ++ [.char '\n'] := by
  obtain ⟨init, last, rfl⟩ := (List.eq_nil_or_concat texts).resolve_left hne
  rw [List.concat_eq_append, join_append_cons, join_singleton]
  simp [unlines]

theorem mem_of_startsWith {pat s : Text} (h : startsWith pat s = true) {c : CodePoint} (hc : c ∈ pat) :
    c ∈ s := by
  obtain ⟨rest, hrest⟩ := Option.isSome_iff_exists.mp h
  rw [eq_append_of_after? hrest]
  exact List.mem_append_left rest hc

/-- A text has the characters of every text that occurs in it. -/
theorem mem_of_occursIn {pat s : Text} (h : occursIn pat s = true) {c : CodePoint} (hc : c ∈ pat) : c ∈ s := by
  induction s with
  | nil =>
    rw [occursIn, List.isEmpty_iff] at h
    rw [h] at hc
    cases hc
  | cons d ds ih =>
    rcases Bool.or_eq_true_iff.mp h with h | h
    · exact mem_of_startsWith h hc
    · exact List.mem_cons_of_mem d (ih h)

theorem occursIn_unlines {sep : Text} (hne : sep ≠ []) (hc : .char '\n' ∉ sep) {texts : List Text}
    (h : ∀ t ∈ texts, occursIn sep t = false) (rest : Text) :
    occursIn sep (unlines texts ++ rest) = occursIn sep rest := by
  induction texts with
  | nil => rfl
  | cons t ts ih =>
    have hts := ih fun u hu => h u (List.mem_cons_of_mem t hu)
    have hsplit : unlines (t :: ts) ++ rest = t ++ .char '\n' :: (unlines ts ++ rest) := by simp [unlines]
    rw [hsplit, occursIn_append_cons hne hc, h t List.mem_cons_self, hts, Bool.false_or]

theorem occursIn_join {sep : Text} (hne : sep ≠ []) (hc : .char '\n' ∉ sep) {texts : List Text}
    (h : ∀ t ∈ texts, occursIn sep t = false) : occursIn sep (join "\n" texts) = false := by
  rcases List.eq_nil_or_concat texts with rfl | ⟨init, last, rfl⟩
  · exact occursIn_nil hne
  · rw [List.concat_eq_append] at h ⊢
    rw [join_append_cons, occursIn_unlines hne hc fun t ht => h t (List.mem_append_left _ ht)]
    exact h last (by simp)

end ElementCompiler.Text
