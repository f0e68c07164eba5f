import ElementCompiler.Decimal.Layout

set_option autoImplicit false

/-!
The characters that numbers are written with. What holds of the digits, the point, the signs and the
letter of the exponent holds of every number that is written.
-/

namespace ElementCompiler.Decimal

/-- What a number is written with, unless it is infinite or none. -/
def numberCharacters : Text := "0123456789.e+-"

theorem digit_mem_numberCharacters : ∀ n < 10, CodePoint.char (Char.ofNat (48 + n)) ∈ numberCharacters := by
  decide

section Characters

variable {p : CodePoint → Bool} (hp : numberCharacters.all p = true)
include hp

theorem all_of_subset {s : Text} (hs : s ⊆ numberCharacters) : s.all p = true :=
  List.all_eq_true.mpr fun c hc => List.all_eq_true.mp hp c (hs hc)

theorem all_digitsOf (n : Nat) : (digitsOf n).all p = true := by
  refine all_of_subset hp fun c hc => ?_
  obtain ⟨digit, hdigit, rfl⟩ := List.mem_map.mp hc
  have hbounds := Nat.isDigit_of_mem_toDigits (by decide) (by decide) hdigit
  simp only [Char.isDigit, Bool.and_eq_true, decide_eq_true_eq] at hbounds
  have hlow : 48 ≤ digit.toNat := hbounds.1
  have hhigh : digit.toNat ≤ 57 := hbounds.2
  have hmem := digit_mem_numberCharacters (digit.toNat - 48) (by omega)
  rwa [Nat.add_sub_cancel' hlow, Char.ofNat_toNat] at hmem

theorem all_zeros (n : Nat) : (zeros n).all p = true :=
  all_of_subset hp fun c hc => by
    rw [(List.mem_replicate.mp hc).2]
    decide

theorem all_exponentText (e : Int) : (exponentText e).all p = true := by
  have hsign : (if e < 0 then Text.ofString "e-" else "e+").all p = true := by
    split <;> exact all_of_subset hp (by decide)
  rw [exponentText, List.all_append, List.all_append, hsign, all_zeros hp, all_digitsOf hp]
  rfl

theorem all_digitsText (d : Digits) : d.text.all p = true := by
  have hdigits := all_digitsOf hp d.digits
  have hpoint : (Text.ofString ".").all p = true := all_of_subset hp (by decide)
  have hzero : (Text.ofString "0.").all p = true := all_of_subset hp (by decide)
  have hwhole : (Text.ofString ".0").all p = true := all_of_subset hp (by decide)
  have htake : ∀ n, ((digitsOf d.digits).take n).all p = true := fun n =>
    List.all_eq_true.mpr fun c hc => List.all_eq_true.mp hdigits c (List.mem_of_mem_take hc)
  have hdrop : ∀ n, ((digitsOf d.digits).drop n).all p = true := fun n =>
    List.all_eq_true.mpr fun c hc => List.all_eq_true.mp hdigits c (List.mem_of_mem_drop hc)
  unfold Digits.text
  dsimp only
  split
  next =>
    split
    next => rw [List.all_append, List.all_append, hzero, all_zeros hp, hdigits]; rfl
    next =>
      split
      next => rw [List.all_append, List.all_append, hdigits, all_zeros hp, hwhole]; rfl
      next => rw [List.all_append, List.all_append, htake, hpoint, hdrop]; rfl
  next =>
    rw [List.all_append, all_exponentText hp, Bool.and_true]
    split
    next => exact htake 1
    next => rw [List.all_append, List.all_append, htake, hpoint, hdrop]; rfl

/-- A double is written with these characters, unless the layout has words of its own for it. -/
theorem all_layoutText {layout : Layout} (hinfinity : layout.infinity.all p = true)
    (hnegative : layout.negativeInfinity.all p = true) (hnone : layout.notANumber.all p = true) (x : Float) :
    (layout.text x).all p = true := by
  have hsign : (if Double.isNegative x then Text.ofString "-" else "").all p = true := by
    split <;> exact all_of_subset hp (by decide)
  have hzero : (Text.ofString "0.0").all p = true := all_of_subset hp (by decide)
  unfold Layout.text
  dsimp only
  split
  next => exact hnone
  next =>
    split
    next =>
      split
      next => exact hnegative
      next => exact hinfinity
    next =>
      split
      next => rw [List.all_append, hsign, hzero]; rfl
      next => rw [List.all_append, hsign, all_digitsText hp]; rfl

theorem all_int (n : Int) : (Text.ofString (toString n)).all p = true := by
  have hnat : ∀ m : Nat, Text.ofString m.repr = digitsOf m := fun m => by
    rw [Text.ofString, Nat.toList_repr]
    rfl
  cases n with
  | ofNat m =>
    have htext : toString (Int.ofNat m) = m.repr := rfl
    rw [htext, hnat]
    exact all_digitsOf hp m
  | negSucc m =>
    have htext : toString (Int.negSucc m) = "-" ++ (m + 1).repr := rfl
    have hminus : (Text.ofString "-").all p = true := all_of_subset hp (by decide)
    have hsplit : Text.ofString ("-" ++ (m + 1).repr) = Text.ofString "-" ++
        Text.ofString (m + 1).repr := by simp [Text.ofString]
    rw [htext, hsplit, List.all_append, hminus, hnat, all_digitsOf hp]
    rfl

end Characters
end ElementCompiler.Decimal
