import ElementCompiler.Text.Blank
import Mathlib.Data.List.Basic
import Mathlib.Data.List.DropRight

set_option autoImplicit false

/-!
Trimming a text that is put together of pieces. A character that is no blank stops it on either
side; a blank at an end changes nothing.
-/

namespace ElementCompiler.Text

variable {c : CodePoint}

theorem trimStart_append (hc : c.is isBlank = false) (s t : Text) :
    trimStart (s ++ c :: t) = trimStart s ++ c :: t := by
  rw [trimStart, trimStart, List.dropWhile_append]
  by_cases hs : (s.dropWhile (·.is isBlank)).isEmpty = true
  · rw [if_pos hs, List.isEmpty_iff.mp hs, List.nil_append, List.dropWhile_cons_of_neg (by simp [hc])]
  · rw [if_neg hs]

theorem trimEnd_append (hc : c.is isBlank = false) (s : Text) :
    trimEnd (s ++ [c]) = s ++ [c] := by
  rw [trimEnd, List.reverse_append, List.reverse_singleton, List.singleton_append,
    List.dropWhile_cons_of_neg (by simp [hc]), List.reverse_cons, List.reverse_reverse]

theorem trimEnd_append_blank (hc : c.is isBlank = true) (s : Text) :
    trimEnd (s ++ [c]) = trimEnd s := by
  rw [trimEnd, List.reverse_append, List.reverse_singleton, List.singleton_append,
    List.dropWhile_cons_of_pos hc, ← trimEnd]

theorem trim_cons (hc : c.is isBlank = false) (s : Text) : trim (c :: s) = c :: trimEnd s := by
  have hstart : trimStart (c :: s) = c :: s := List.dropWhile_cons_of_neg (by simp [hc])
  have hend := trimStart_append hc s.reverse []
  rw [trimStart, trimStart] at hend
  rw [trim, hstart, trimEnd, List.reverse_cons, hend, List.reverse_append, ← trimEnd]
  rfl

theorem trim_trimStart (s : Text) : trim (trimStart s) = trim s := by
  rw [trim, trim, trimStart, trimStart, List.dropWhile_idempotent]

theorem trim_cons_blank (hc : c.is isBlank = true) (s : Text) : trim (c :: s) = trim s := by
  rw [trim, trimStart, List.dropWhile_cons_of_pos hc, ← trimStart, ← trim]

theorem trim_append_blank (hc : c.is isBlank = true) (s : Text) : trim (s ++ [c]) = trim s := by
  rw [trim, trimStart, List.dropWhile_append]
  by_cases hs : (s.dropWhile (·.is isBlank)).isEmpty = true
  · rw [if_pos hs, List.dropWhile_cons_of_pos hc, List.dropWhile_nil, trim, trimStart,
      List.isEmpty_iff.mp hs]
  · rw [if_neg hs, trimEnd_append_blank hc]
    rfl

theorem isBlankText_trimStart (s : Text) : isBlankText (trimStart s) = isBlankText s := by
  induction s with
  | nil => rfl
  | cons c cs ih =>
    by_cases hc : c.is isBlank = true
    · rw [trimStart, List.dropWhile_cons_of_pos hc, ← trimStart, ih, isBlankText, isBlankText,
        List.all_cons, hc, Bool.true_and]
    · rw [trimStart, List.dropWhile_cons_of_neg hc]

theorem isBlankText_reverse (s : Text) : isBlankText s.reverse = isBlankText s := List.all_reverse

theorem exists_trim (s : Text) : ∃ front back, s = front ++ (trim s ++ back) ∧
    isBlankText front = true ∧ isBlankText back = true := by
  have hall : ∀ t : Text, isBlankText (t.takeWhile (·.is isBlank)) = true :=
    fun t => List.all_eq_true.mpr fun _ hc => List.mem_takeWhile_imp hc
  have hend : ∀ t : Text, t = trimEnd t ++ (t.reverse.takeWhile (·.is isBlank)).reverse := by
    intro t
    rw [trimEnd, ← List.reverse_append, List.takeWhile_append_dropWhile, List.reverse_reverse]
  refine ⟨s.takeWhile (·.is isBlank), ((trimStart s).reverse.takeWhile (·.is isBlank)).reverse, ?_,
    hall s, (isBlankText_reverse _).trans (hall _)⟩
  rw [trim, ← hend, trimStart, List.takeWhile_append_dropWhile]

theorem isBlankText_trim (s : Text) : isBlankText (trim s) = isBlankText s := by
  rw [trim, trimEnd, isBlankText_reverse, ← trimStart, isBlankText_trimStart, isBlankText_reverse,
    isBlankText_trimStart]

/-- Nothing is left of a text exactly when it is blank. -/
theorem isEmpty_trim (s : Text) : (trim s).isEmpty = isBlankText s := by
  rw [trim, trimEnd, List.isEmpty_reverse, ← isBlankText_trimStart s, ← isBlankText_reverse,
    isBlankText, Bool.eq_iff_iff, List.isEmpty_iff, List.dropWhile_eq_nil_iff, List.all_eq_true]

end ElementCompiler.Text
