import ElementCompiler.Text.Case

set_option autoImplicit false

/-!
The characters of a text in lower case: those of the text, and others that come after the signs and
capitals of ASCII in the order of their numbers. No capital of ASCII is among them.
-/

namespace ElementCompiler.Text

/-- A code point beyond the capitals of ASCII and the signs before them, or the null character, which
    stands for numbers that are no characters. -/
def IsBeyondSigns (d : CodePoint) : Prop := d.number = 0 ∨ 90 < d.number

/-- No run of the case table leads down to a sign or capital of ASCII. -/
theorem lowerRuns_above : ∀ r ∈ lowerRuns, 90 < r.first + r.shift := by decide +kernel

theorem lowerSpecial_above : ∀ e ∈ lowerSpecial, ∀ n ∈ e.2, 90 < n := by decide

theorem isBeyondSigns_ofNat {n : Nat} (h : 90 < n) : IsBeyondSigns (.char (Char.ofNat n)) := by
  by_cases hvalid : n.isValidChar
  · have hnumber : (Char.ofNat n).toNat = n := by rw [Char.ofNat, dif_pos hvalid]; rfl
    exact .inr (by simpa [CodePoint.number, hnumber] using h)
  · exact .inl (by rw [CodePoint.number, Char.ofNat, dif_neg hvalid]; rfl)

theorem lt_shiftBy_lowerRuns {n : Nat} (h : 90 < n) : 90 < shiftBy lowerRuns n := by
  unfold shiftBy
  split
  next r hr =>
    have habove := lowerRuns_above r (List.mem_of_find?_eq_some hr)
    have hfirst : r.first ≤ n := by
      have hwithin := List.find?_some hr
      simp only [Bool.and_eq_true, decide_eq_true_eq] at hwithin
      omega
    omega
  next => exact h

theorem isBeyondSigns_caseOf {c d : Char} (hc : 90 < c.toNat)
    (hd : d ∈ caseOf lowerSpecial lowerRuns c) : IsBeyondSigns (.char d) := by
  unfold caseOf at hd
  split at hd
  next ns hns =>
    obtain ⟨n, hn, rfl⟩ := List.mem_map.mp hd
    obtain ⟨before, after, hparts, _⟩ := List.lookup_eq_some_iff.mp hns
    exact isBeyondSigns_ofNat (lowerSpecial_above (c.toNat, ns) (by simp [hparts]) n hn)
  next =>
    rw [List.mem_singleton.mp hd]
    exact isBeyondSigns_ofNat (lt_shiftBy_lowerRuns hc)

theorem toLower_ofNat_above : ∀ n < 128, (Char.ofNat n).toLower = Char.ofNat n ∨
    90 < (Char.ofNat n).toLower.toNat := by decide

theorem mem_mapChar_lowerChar {c d : CodePoint} (h : d ∈ mapChar lowerChar c) :
    d = c ∨ IsBeyondSigns d := by
  cases c with
  | half n => exact .inl (List.mem_singleton.mp h)
  | char c =>
    obtain ⟨e, he, rfl⟩ := List.mem_map.mp h
    unfold lowerChar at he
    split at he
    next hascii =>
      obtain rfl := List.mem_singleton.mp he
      have hlower := toLower_ofNat_above c.toNat hascii
      rw [Char.ofNat_toNat] at hlower
      exact hlower.imp (congrArg CodePoint.char) .inr
    next hascii => exact .inr (isBeyondSigns_caseOf (by omega) he)

theorem isBeyondSigns_smallSigma (before rest : Text) : IsBeyondSigns (smallSigma before rest) := by
  unfold smallSigma IsBeyondSigns
  split <;> decide

/-- Lower case writes no sign that was not there. -/
theorem mem_lower {s : Text} {d : CodePoint} (h : d ∈ lower s) : d ∈ s ∨ IsBeyondSigns d := by
  suffices hfrom : ∀ before, d ∈ lowerFrom before s → d ∈ s ∨ IsBeyondSigns d from hfrom [] h
  clear h
  induction s with
  | nil => exact fun _ h => absurd h List.not_mem_nil
  | cons c cs ih =>
    intro before h
    rw [lowerFrom, List.mem_append] at h
    rcases h with h | h
    · split at h
      next => exact .inr (List.mem_singleton.mp h ▸ isBeyondSigns_smallSigma before cs)
      next =>
        refine (mem_mapChar_lowerChar h).imp_left ?_
        rintro rfl
        exact List.mem_cons_self
    · exact (ih _ h).imp_left (List.mem_cons_of_mem c)

theorem isUpper_toLower_ofNat : ∀ n < 128, (Char.ofNat n).toLower.isUpper = false := by decide

theorem isUpper_of_isBeyondSigns {d : CodePoint} (h : IsBeyondSigns d) : d.is Char.isUpper = false := by
  cases d with
  | half n => rfl
  | char c =>
    rw [Bool.eq_false_iff]
    intro hupper
    have hbounds : 65 ≤ c.toNat ∧ c.toNat ≤ 90 := of_decide_eq_true hupper
    rcases h with h | h <;> simp only [CodePoint.number] at h <;> omega

theorem isUpper_toLower (c : Char) : c.toLower.isUpper = false := by
  by_cases hascii : c.toNat < 128
  · have hlower := isUpper_toLower_ofNat c.toNat hascii
    rwa [Char.ofNat_toNat] at hlower
  · have hupper : ¬ ('A' ≤ c ∧ c ≤ 'Z') := fun h => by
      have hlast : c.toNat ≤ 90 := h.2
      omega
    have hsame : c.toLower = c := dif_neg hupper
    have habove : 90 < (CodePoint.char c).number := by
      rw [CodePoint.number]
      omega
    rw [hsame]
    exact isUpper_of_isBeyondSigns (d := .char c) (.inr habove)

/-- A text in lower case has no capital of ASCII. -/
theorem isUpper_of_mem_lower {s : Text} {d : CodePoint} (h : d ∈ lower s) : d.is Char.isUpper = false := by
  suffices hfrom : ∀ before, d ∈ lowerFrom before s → d.is Char.isUpper = false from hfrom [] h
  clear h
  induction s with
  | nil => exact fun _ h => absurd h List.not_mem_nil
  | cons c cs ih =>
    intro before h
    rw [lowerFrom, List.mem_append] at h
    refine h.elim (fun h => ?_) (ih _)
    split at h
    next => exact List.mem_singleton.mp h ▸ isUpper_of_isBeyondSigns (isBeyondSigns_smallSigma before cs)
    next =>
      cases c with
      | half n => exact List.mem_singleton.mp h ▸ rfl
      | char c =>
        obtain ⟨e, he, rfl⟩ := List.mem_map.mp h
        unfold lowerChar at he
        split at he
        next => exact List.mem_singleton.mp he ▸ isUpper_toLower c
        next hascii => exact isUpper_of_isBeyondSigns (isBeyondSigns_caseOf (by omega) he)

end ElementCompiler.Text
