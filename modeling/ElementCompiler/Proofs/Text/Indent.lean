import ElementCompiler.Text.Lines

set_option autoImplicit false

/-!
Indentation taken back. Each pad that `indentRest` writes follows a newline, so a reader that drops
one pad after every newline has the text as it was.
-/

namespace ElementCompiler.Text

variable {width : Nat}

def startsLine : Text → Bool
  | [] => false
  | c :: _ => c != '\n'

def linePad (width : Nat) (c : CodePoint) (cs : Text) : Text :=
  if c = '\n' ∧ startsLine cs then pad width else []

theorem indentRest_cons (c : CodePoint) (cs : Text) :
    indentRest width (c :: cs) = c :: (linePad width c cs ++ indentRest width cs) := by
  unfold linePad
  cases cs with
  | nil => simp [indentRest, startsLine]
  | cons d ds =>
    by_cases hc : c = '\n' <;> by_cases hd : d = '\n' <;> simp [indentRest, startsLine, hc, hd]

/-- A text is written with blanks put in behind some of its line breaks. -/
structure PadsLines (f : Text → Text) (padding : CodePoint → Text → Text) : Prop where
  nil : f [] = []
  cons : ∀ c cs, f (c :: cs) = c :: (padding c cs ++ f cs)
  blank : ∀ (c : CodePoint) cs, ∀ d ∈ padding c cs, d = ' '
  line : ∀ (c : CodePoint) cs, c ≠ '\n' → padding c cs = []

namespace PadsLines

variable {f : Text → Text} {padding : CodePoint → Text → Text} {c : CodePoint} {s : Text}

theorem append (h : PadsLines f padding) (hs : .char '\n' ∉ s) (t : Text) : f (s ++ t) = s ++ f t := by
  induction s with
  | nil => rfl
  | cons c cs ih =>
    rw [List.mem_cons, not_or] at hs
    rw [List.cons_append, h.cons, h.line _ _ (Ne.symm hs.1), ih hs.2]
    rfl

theorem mem (h : PadsLines f padding) (hc : c ∈ f s) : c ∈ s ∨ c = ' ' := by
  induction s with
  | nil => exact absurd (h.nil ▸ hc) List.not_mem_nil
  | cons d ds ih =>
    rw [h.cons, List.mem_cons, List.mem_append] at hc
    rcases hc with rfl | hpad | hc
    · exact .inl List.mem_cons_self
    · exact .inr (h.blank _ _ c hpad)
    · exact (ih hc).imp_left (List.mem_cons_of_mem d)

theorem mem_of_mem (h : PadsLines f padding) (hc : c ∈ s) : c ∈ f s := by
  induction s with
  | nil => cases hc
  | cons d ds ih =>
    rw [h.cons, List.mem_cons, List.mem_append]
    exact (List.mem_cons.mp hc).imp_right fun hc => .inr (ih hc)

end PadsLines

theorem padsLines_indentRest (width : Nat) : PadsLines (indentRest width) (linePad width) where
  nil := rfl
  cons := indentRest_cons
  blank c cs d hd := by
    unfold linePad at hd
    split at hd
    next => exact List.eq_of_mem_replicate hd
    next => cases hd
  line _ _ hc := if_neg fun h => hc h.1

theorem mem_indentRest {c : CodePoint} {s : Text} (h : c ∈ indentRest width s) : c ∈ s ∨ c = ' ' :=
  (padsLines_indentRest width).mem h

theorem indentRest_append {s : Text} (hs : .char '\n' ∉ s) (t : Text) :
    indentRest width (s ++ t) = s ++ indentRest width t := (padsLines_indentRest width).append hs t

section Within

/-- No newline is next, in a text that a line goes on after. -/
def continuesLine : Text → Bool
  | [] => true
  | c :: _ => c != '\n'

/-- A pad after each newline that does not stand before another, at the end as well: the indentation of
    a text that a line goes on after. -/
def indentWithin (width : Nat) : Text → Text
  | [] => []
  | c :: cs => c :: ((if c = '\n' ∧ continuesLine cs then pad width else []) ++ indentWithin width cs)

variable {c : CodePoint} {s : Text}

def withinPad (width : Nat) (c : CodePoint) (cs : Text) : Text :=
  if c = '\n' ∧ continuesLine cs then pad width else []

theorem padsLines_indentWithin (width : Nat) : PadsLines (indentWithin width) (withinPad width) where
  nil := rfl
  cons _ _ := rfl
  blank c cs d hd := by
    unfold withinPad at hd
    split at hd
    next => exact List.eq_of_mem_replicate hd
    next => cases hd
  line _ _ hc := if_neg fun h => hc h.1

theorem indentWithin_append (hs : .char '\n' ∉ s) (t : Text) :
    indentWithin width (s ++ t) = s ++ indentWithin width t := (padsLines_indentWithin width).append hs t

theorem indentWithin_eq_self (hs : .char '\n' ∉ s) : indentWithin width s = s := by
  have happend : indentWithin width (s ++ []) = s ++ [] := indentWithin_append hs []
  rwa [List.append_nil] at happend

/-- The lines of a text are indented alike whatever line goes on after it. -/
theorem indentRest_append_cons (hc : c ≠ '\n') (s t : Text) :
    indentRest width (s ++ c :: t) = indentWithin width s ++ c :: indentRest width t := by
  induction s with
  | nil => simp [indentRest_cons, indentWithin, linePad, hc]
  | cons d ds ih =>
    have hline : startsLine (ds ++ c :: t) = continuesLine ds := by
      cases ds <;> simp [startsLine, continuesLine, hc]
    rw [List.cons_append, indentRest_cons, indentWithin, ih, linePad, hline, List.cons_append,
      List.append_assoc]

theorem mem_indentWithin (h : c ∈ indentWithin width s) : c ∈ s ∨ c = ' ' := (padsLines_indentWithin width).mem h

theorem mem_indentWithin_of_mem (h : c ∈ s) : c ∈ indentWithin width s :=
  (padsLines_indentWithin width).mem_of_mem h

end Within

/-- Drops one pad after each newline that has one; `skip` counts the blanks still to be dropped. -/
def outdentFrom (width : Nat) : (skip : Nat) → Text → Text
  | _, [] => []
  | skip + 1, _ :: cs => outdentFrom width skip cs
  | 0, c :: cs =>
    c :: outdentFrom width (if c = '\n' ∧ startsWith (pad width) cs then width else 0) cs

def outdentRest (width : Nat) (s : Text) : Text := outdentFrom width 0 s

theorem outdentFrom_append (width : Nat) (s t : Text) :
    outdentFrom width s.length (s ++ t) = outdentFrom width 0 t := by
  induction s with
  | nil => rfl
  | cons c cs ih => simpa [outdentFrom] using ih

theorem not_startsWith_pad (hw : 0 < width) {s : Text} (hs : startsLine s = false) :
    startsWith (pad width) (indentRest width s) = false := by
  obtain ⟨n, rfl⟩ := Nat.exists_eq_succ_of_ne_zero (Nat.pos_iff_ne_zero.mp hw)
  cases s with
  | nil => rfl
  | cons c cs =>
    have hc : c = '\n' := by simpa [startsLine] using hs
    rw [indentRest_cons, hc]
    simp [startsWith, pad, List.replicate_succ, after?]

theorem outdentRest_indentRest (hw : 0 < width) (s : Text) :
    outdentRest width (indentRest width s) = s := by
  unfold outdentRest
  induction s with
  | nil => rfl
  | cons c cs ih =>
    rw [indentRest_cons, outdentFrom, linePad]
    by_cases hline : c = '\n' ∧ startsLine cs = true
    · have hskip := outdentFrom_append width (pad width) (indentRest width cs)
      rw [show (pad width).length = width from List.length_replicate, ih] at hskip
      simp [hline, startsWith, hskip]
    · -- a newline that got no pad is followed by no text of its own line
      have hkeep : ¬ (c = '\n' ∧ startsWith (pad width) (indentRest width cs) = true) := by
        intro h
        cases hcs : startsLine cs with
        | true => exact hline ⟨h.1, hcs⟩
        | false => simp [not_startsWith_pad hw hcs] at h
      simp [hline, hkeep, ih]

end ElementCompiler.Text
