import ElementCompiler.Text.Basic
import ElementCompiler.Text.Class
import Mathlib.Data.List.Basic

set_option autoImplicit false

/-!
Classes of characters that do not meet: what continues a name is no blank.
-/

namespace ElementCompiler.Text

def blankRanges : List (Nat × Nat) :=
  [(9, 13), (28, 32), (0x85, 0x85), (0xA0, 0xA0), (0x1680, 0x1680), (0x2000, 0x200A),
    (0x2028, 0x2029), (0x202F, 0x202F), (0x205F, 0x205F), (0x3000, 0x3000)]

def blankNumbers : List Nat :=
  blankRanges.flatMap fun r => List.range' r.1 (r.2 + 1 - r.1)

theorem toNat_mem_blankNumbers {c : Char} (h : isBlank c = true) : c.toNat ∈ blankNumbers := by
  have hrange : ∃ r ∈ blankRanges, r.1 ≤ c.toNat ∧ c.toNat ≤ r.2 := by
    simp only [isBlank, Bool.or_eq_true, Bool.and_eq_true, decide_eq_true_eq, beq_iff_eq] at h
    simp only [blankRanges, List.exists_mem_cons_iff, List.not_mem_nil, false_and, exists_false,
      or_false]
    omega
  obtain ⟨r, hr, hlow, hhigh⟩ := hrange
  refine List.mem_flatMap.mpr ⟨r, hr, List.mem_range'_1.mpr ⟨hlow, ?_⟩⟩
  omega

theorem isMember_blankNumbers : ∀ n ∈ blankNumbers, isMember (Char.ofNat n) = false := by
  decide +kernel

theorem isMember_of_isBlank {c : Char} (h : isBlank c = true) : isMember c = false := by
  have hc := isMember_blankNumbers c.toNat (toNat_mem_blankNumbers h)
  rwa [Char.ofNat_toNat] at hc

theorem is_isBlank_of_isMember {c : CodePoint} (h : c.is isMember = true) :
    c.is isBlank = false := by
  cases c with
  | half n => rfl
  | char c =>
    by_contra hc
    have hb := isMember_of_isBlank (c := c) (by simpa [CodePoint.is] using hc)
    rw [CodePoint.is, hb] at h
    exact Bool.false_ne_true h

theorem toNat_lt_of_isAlpha {c : Char} (h : c.isAlpha = true) : c.toNat < 128 := by
  change (c.isUpper || c.isLower) = true at h
  rw [Bool.or_eq_true] at h
  rcases h with h | h
  · have hupper : 'A'.val ≤ c.val ∧ c.val ≤ 'Z'.val := of_decide_eq_true h
    exact Nat.lt_of_le_of_lt hupper.2 (by decide)
  · change (decide ('a'.val ≤ c.val) && decide (c.val ≤ 'z'.val)) = true at h
    rw [Bool.and_eq_true] at h
    exact Nat.lt_of_le_of_lt (of_decide_eq_true h.2) (by decide)

theorem toNat_lt_of_isAlphanum {c : Char} (h : c.isAlphanum = true) : c.toNat < 128 := by
  rw [Char.isAlphanum, Bool.or_eq_true] at h
  rcases h with h | h
  · exact toNat_lt_of_isAlpha h
  · have hbounds : '0'.val ≤ c.val ∧ c.val ≤ '9'.val := by simpa [Char.isDigit] using h
    exact Nat.lt_of_le_of_lt hbounds.2 (by decide)

theorem isMember_of_isNameStart {c : Char} (h : isNameStart c = true) : isMember c = true := by
  simp only [isNameStart, Bool.or_eq_true] at h
  simp only [isMember, isWord, isAlphanumeric, Bool.or_eq_true]
  rcases h with (h | h) | h
  · rw [if_pos (toNat_lt_of_isAlpha h)]
    have halnum : c.isAlphanum = true := (Bool.or_eq_true _ _).mpr (Or.inl h)
    exact Or.inr (Or.inr halnum)
  · exact Or.inr (Or.inl h)
  · exact Or.inl h

end ElementCompiler.Text
