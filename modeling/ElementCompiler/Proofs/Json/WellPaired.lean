import ElementCompiler.Proofs.Json.Strings

set_option autoImplicit false

/-!
Texts that are read are well paired. Two halves that make a pair can only be written as two escapes
in a row, and those are read as one character.
-/

namespace ElementCompiler.Json

open Text

/-- A text that goes on with the escape of a low half, and with something behind it. -/
def IsLowUnit (s : Text) : Prop :=
  ∃ e f g h m next more, s = .char '\\' :: .char 'u' :: e :: f :: g :: h :: next :: more ∧
    hexValue4? e f g h = some m ∧ isLowHalf m = true

theorem hexValue?_lt {c : CodePoint} {n : Nat} (h : hexValue? c = some n) : n < 16 := by
  simp only [hexValue?] at h
  split at h
  next => obtain rfl := Option.some.inj h; omega
  next =>
  split at h
  next => obtain rfl := Option.some.inj h; omega
  next =>
  split at h
  next => obtain rfl := Option.some.inj h; omega
  next => simp at h

theorem hexValue4?_lt {a b c d : CodePoint} {n : Nat} (h : hexValue4? a b c d = some n) :
    n < 0x10000 := by
  simp only [hexValue4?, Option.bind_eq_bind, Option.bind_eq_some_iff] at h
  obtain ⟨p, hp, q, hq, r, hr, s, hs, hn⟩ := h
  have hp := hexValue?_lt hp
  have hq := hexValue?_lt hq
  have hr := hexValue?_lt hr
  have hs := hexValue?_lt hs
  obtain rfl := Option.some.inj hn
  omega

theorem number_ofNumber {n : Nat} (h : n < 0x110000) : (CodePoint.ofNumber n).number = n := by
  unfold CodePoint.ofNumber
  split
  next hhalf =>
    change 0xD800 + (n - 0xD800) = n
    omega
  next hchar =>
    have hvalid : n.isValidChar := by
      unfold Nat.isValidChar
      omega
    change (Char.ofNat n).toNat = n
    rw [Char.ofNat, dif_pos hvalid]
    rfl

/-- A high half that an escape stands for has no low half behind it, and a low half stands alone. -/
theorem unicodeEscape?_halves {digits : Text} {x : CodePoint} {n : Nat}
    (h : unicodeEscape? digits = .ok (x, n)) :
    (isHighHalf x.number = true → ¬ IsLowUnit (digits.drop n)) ∧
      (isLowHalf x.number = true → IsLowUnit (.char '\\' :: .char 'u' :: digits)) := by
  unfold unicodeEscape? at h
  split at h
  next a b c d r rs =>
    split at h
    next => simp [refuseAt] at h
    next m hm =>
      have hlt := hexValue4?_lt hm
      have hnumber := number_ofNumber (n := m) (by omega)
      split at h
      next hhigh =>
        have hlow := isLowHalf_of_isHighHalf hhigh
        have halone : isLowHalf (CodePoint.ofNumber m).number = true → False := by
          rw [hnumber, hlow]
          exact Bool.false_ne_true
        split at h
        next e f g i next more _ hmore _ =>
          split at h
          next => simp [refuseAt] at h
          next low hl =>
            by_cases hpair : isLowHalf low = true
            · rw [if_pos hpair] at h
              obtain ⟨rfl, rfl⟩ := Prod.mk.inj (Except.ok.inj h)
              have hbounds : 0xD800 ≤ m ∧ m < 0xDC00 ∧ 0xDC00 ≤ low ∧ low < 0xE000 := by
                simp only [isHighHalf, isLowHalf, Bool.and_eq_true, decide_eq_true_eq] at hhigh hpair
                omega
              have hjoined := number_ofNumber
                (n := 0x10000 + (m - 0xD800) * 0x400 + (low - 0xDC00)) (by omega)
              rw [ofHalves]
              simp only [isHighHalf, isLowHalf, hjoined, Bool.and_eq_true, decide_eq_true_eq]
              omega
            · rw [if_neg hpair] at h
              obtain ⟨rfl, rfl⟩ := Prod.mk.inj (Except.ok.inj h)
              refine ⟨fun _ => ?_, fun hc => (halone hc).elim⟩
              rintro ⟨e', f', g', i', m', next', more', heq, hm', hlow'⟩
              change r :: rs = _ at heq
              rw [hmore] at heq
              simp only [List.cons.injEq, true_and] at heq
              obtain ⟨rfl, rfl, rfl, rfl, _⟩ := heq
              rw [hl] at hm'
              exact hpair (Option.some.inj hm' ▸ hlow')
        next hnone =>
          obtain ⟨rfl, rfl⟩ := Prod.mk.inj (Except.ok.inj h)
          refine ⟨fun _ => ?_, fun hc => (halone hc).elim⟩
          rintro ⟨e, f, g, i, m', next, more, heq, _, _⟩
          change r :: rs = _ at heq
          exact hnone e f g i next more heq.symm heq (proof_irrel_heq _ _)
      next hhigh =>
        obtain ⟨rfl, rfl⟩ := Prod.mk.inj (Except.ok.inj h)
        rw [hnumber]
        refine ⟨fun hc => absurd hc hhigh, fun hc => ?_⟩
        exact ⟨a, b, c, d, m, _, _, rfl, hm, hc⟩
  next => simp [refuseAt] at h

theorem not_isHalf {c : CodePoint} (h : c.isHalf = false) :
    isHighHalf c.number = false ∧ isLowHalf c.number = false := by
  have houtside : ∀ n, n < 0xD800 ∨ 0xDFFF < n → isHighHalf n = false ∧ isLowHalf n = false := by
    intro n hn
    simp only [isHighHalf, isLowHalf, Bool.and_eq_false_iff, decide_eq_false_iff_not]
    omega
  cases c with
  | half n => simp [CodePoint.isHalf] at h
  | char c =>
    have hc : c.toNat < 0xD800 ∨ 0xDFFF < c.toNat ∧ c.toNat < 0x110000 := c.valid
    exact houtside c.toNat (hc.imp_right And.left)

theorem simpleEscape?_isHalf {e x : CodePoint} (h : simpleEscape? e = some x) : x.isHalf = false := by
  unfold simpleEscape? at h
  split at h <;> first | (obtain rfl := Option.some.inj h; rfl) | simp at h

theorem WellPaired.cons {c : CodePoint} {s : Text} (hs : WellPaired s)
    (h : isHighHalf c.number = true → ∀ d, s.head? = some d → isLowHalf d.number = false) :
    WellPaired (c :: s) := by
  cases s with
  | nil => exact List.IsChain.singleton c
  | cons d ds =>
    refine List.isChain_cons_cons.mpr ⟨?_, hs⟩
    rintro ⟨hc, hd⟩
    rw [h hc d rfl] at hd
    exact Bool.false_ne_true hd

/-- What a text without halves is read as, behind what was read before: a well-paired text that
    begins with a low half only where one is escaped. -/
theorem readString_wellPaired (start : Text) {cs : Text} (hcs : ∀ c ∈ cs, c.isHalf = false)
    (skip : Nat) (done : Text) {s rest : Text} (h : readString start skip done cs = .ok (s, rest)) :
    ∃ tail, s = done.reverse ++ tail ∧ WellPaired tail ∧
      ∀ c, tail.head? = some c → isLowHalf c.number = true → IsLowUnit (cs.drop skip) := by
  induction cs generalizing skip done with
  | nil => cases skip <;> simp [readString, refuse, refuseAt] at h
  | cons c cs ih =>
    have htail : ∀ d ∈ cs, d.isHalf = false := fun d hd => hcs d (List.mem_cons_of_mem c hd)
    -- a code point that is no half ends nothing and begins nothing
    have hplain : ∀ x skip', x.isHalf = false → readString start skip' (x :: done) cs = .ok (s, rest) →
        ∃ tail, s = done.reverse ++ tail ∧ WellPaired tail ∧
          ∀ d, tail.head? = some d → isLowHalf d.number = true → IsLowUnit (c :: cs) := by
      intro x skip' hx hread
      obtain ⟨tail, rfl, hpaired, _⟩ := ih htail skip' (x :: done) hread
      obtain ⟨hhigh, hlow⟩ := not_isHalf hx
      refine ⟨x :: tail, by simp, hpaired.cons (by simp [hhigh]), ?_⟩
      intro d hd hlowd
      rw [← Option.some.inj hd, hlow] at hlowd
      exact absurd hlowd Bool.false_ne_true
    cases skip with
    | succ skip => exact ih htail skip done h
    | zero =>
      rw [readString.eq_def] at h
      simp only at h
      split at h
      next =>
        obtain ⟨rfl, rfl⟩ := Prod.mk.inj (Except.ok.inj h)
        exact ⟨[], by simp, List.IsChain.nil, by simp⟩
      next =>
      split at h
      next hback =>
        subst hback
        split at h
        next => simp [refuse, refuseAt] at h
        next digits =>
          cases hunit : unicodeEscape? digits with
          | error e => rw [hunit] at h; simp [bind, Except.bind] at h
          | ok found =>
            obtain ⟨x, n⟩ := found
            rw [hunit] at h
            obtain ⟨tail, rfl, hpaired, hfirst⟩ := ih htail (n + 1) (x :: done) h
            obtain ⟨hhigh, hlow⟩ := unicodeEscape?_halves hunit
            refine ⟨x :: tail, by simp, hpaired.cons fun hx d hd => ?_, ?_⟩
            · refine Bool.eq_false_iff.mpr fun hlowd => hhigh hx ?_
              exact hfirst d hd hlowd
            · intro d hd hlowd
              rw [← Option.some.inj hd] at hlowd
              exact hlow hlowd
        next e more hne =>
          split at h
          next => simp [refuseAt] at h
          next x hx => exact hplain x 1 (simpleEscape?_isHalf hx) h
      next =>
      split at h
      next => simp [refuseAt] at h
      next => exact hplain c 0 (hcs c List.mem_cons_self) h

theorem wellPaired_of_readString {start cs : Text} (hcs : ∀ c ∈ cs, c.isHalf = false)
    {s rest : Text} (h : readString start 0 [] cs = .ok (s, rest)) : WellPaired s := by
  obtain ⟨tail, rfl, hpaired, _⟩ := readString_wellPaired start hcs 0 [] h
  exact hpaired

end ElementCompiler.Json
