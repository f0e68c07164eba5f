import ElementCompiler.Json.Parser
import ElementCompiler.Json.Printer
import Mathlib.Data.List.Basic
import Mathlib.Data.Nat.Init

set_option autoImplicit false

/-!
Strings of JSON in ASCII: each code point is printed as itself or by an escape, and read back as it
was. Only two halves that make a surrogate pair are read as the one character that they make.
-/

namespace ElementCompiler.Json

open Text

/-- The forms in which a code point is printed in ASCII. -/
inductive PrintedPoint (c : CodePoint) : Text → Prop where
  | plain : c ≠ .char '"' → c ≠ .char '\\' → 32 ≤ c.number → c.number < 127 → PrintedPoint c [c]
  | simple (e : Char) : e ∈ ['"', '\\', 'n', 'r', 't', 'b', 'f'] → simpleEscape? e = some c →
      PrintedPoint c [.char '\\', .char e]
  | unit : c.number < 0x10000 → PrintedPoint c (unicodeEscape c.number)
  | pair (high low : Nat) : isHighHalf high = true → isLowHalf low = true → ofHalves high low = c →
      PrintedPoint c (unicodeEscape high ++ unicodeEscape low)

theorem number_lt (c : CodePoint) : c.number < 0x110000 := by
  cases c with
  | char c =>
    have hc : c.toNat < 0xD800 ∨ 0xDFFF < c.toNat ∧ c.toNat < 0x110000 := c.valid
    change c.toNat < 0x110000
    omega
  | half n =>
    change 0xD800 + n.val < 0x110000
    omega

theorem printedPoint_escaped (c : CodePoint) : PrintedPoint c (escaped c) := by
  rw [escaped]
  split
  next h => exact .unit h
  next h =>
    have hlt := number_lt c
    refine .pair _ _ ?_ ?_ ?_
    · simp only [isHighHalf, Bool.and_eq_true, decide_eq_true_eq]
      omega
    · simp only [isLowHalf, Bool.and_eq_true, decide_eq_true_eq]
      omega
    · have hnumber : 0x10000 + (0xD800 + (c.number - 0x10000) / 0x400 - 0xD800) * 0x400 +
          (0xDC00 + (c.number - 0x10000) % 0x400 - 0xDC00) = c.number := by omega
      rw [ofHalves, hnumber, CodePoint.ofNumber_number]

theorem printedPoint_stringPoint (c : CodePoint) : PrintedPoint c (stringPoint true c) := by
  have hnumber : ∀ n, c.number = n → CodePoint.ofNumber n = c := by
    rintro n rfl
    exact CodePoint.ofNumber_number c
  rw [stringPoint]
  split
  next h => exact .simple '"' (by decide) (by rw [h]; rfl)
  next hquote =>
  split
  next h => exact .simple '\\' (by decide) (by rw [h]; rfl)
  next hback =>
  split
  next h => exact .simple 'n' (by decide) (by rw [h]; rfl)
  split
  next h => exact .simple 'r' (by decide) (by rw [h]; rfl)
  split
  next h => exact .simple 't' (by decide) (by rw [h]; rfl)
  split
  next h => exact .simple 'b' (by decide) (by rw [← hnumber 8 h]; rfl)
  split
  next h => exact .simple 'f' (by decide) (by rw [← hnumber 12 h]; rfl)
  split
  next => exact printedPoint_escaped c
  next h =>
    simp only [Bool.true_and, Bool.or_eq_true, decide_eq_true_eq, not_or, Nat.not_lt, Nat.not_le] at h
    exact .plain hquote hback h.1 h.2

theorem hexValue?_hexDigit (n : Nat) : hexValue? (.char (hexDigit n)) = some (n % 16) := by
  have hdigits : ∀ k < 16,
      hexValue? (.char ("0123456789abcdef".toList.getD k '0')) = some k := by decide
  exact hdigits (n % 16) (Nat.mod_lt n (by decide))

theorem hex_four (n : Nat) : hex 4 n = [.char (hexDigit (n / 16 / 16 / 16)),
    .char (hexDigit (n / 16 / 16)), .char (hexDigit (n / 16)), .char (hexDigit n)] := rfl

theorem hexValue4?_hex {n : Nat} (h : n < 0x10000) :
    hexValue4? (.char (hexDigit (n / 16 / 16 / 16))) (.char (hexDigit (n / 16 / 16)))
      (.char (hexDigit (n / 16))) (.char (hexDigit n)) = some n := by
  simp only [hexValue4?, hexValue?_hexDigit, Option.bind_eq_bind, Option.bind_some]
  refine congrArg some ?_
  omega

theorem unicodeEscape_eq (n : Nat) : unicodeEscape n = .char '\\' :: .char 'u' :: hex 4 n := rfl

/-- A text that goes on with an escape by number. -/
def IsUnit (s : Text) : Prop := ∃ rest, s = .char '\\' :: .char 'u' :: rest

/-- A text before which a high half stays alone. -/
def PartsHalves (s : Text) : Prop :=
  ¬ IsUnit s ∨
    ∃ m tail, s = unicodeEscape m ++ tail ∧ tail ≠ [] ∧ m < 0x10000 ∧ isLowHalf m = false

/-- An escape stands for its own number when no low half follows a high half. -/
theorem unicodeEscape?_alone {n : Nat} (hn : n < 0x10000) {more : Text} (hne : more ≠ [])
    (h : isHighHalf n = false ∨ PartsHalves more) :
    unicodeEscape? (hex 4 n ++ more) = .ok (.ofNumber n, 4) := by
  have hvalue := hexValue4?_hex hn
  rw [hex_four]
  by_cases hhigh : isHighHalf n = true
  · rcases h with h | h | ⟨low, tail, rfl, hne, hlt, hlow⟩
    · simp [hhigh] at h
    · obtain ⟨m, ms, rfl⟩ := List.exists_cons_of_ne_nil hne
      simp only [List.cons_append, List.nil_append, unicodeEscape?, hvalue, hhigh, if_true]
      split
      next hm _ => exact absurd ⟨_, hm⟩ h
      next => rfl
    · obtain ⟨t, ts, rfl⟩ := List.exists_cons_of_ne_nil hne
      have hnext := hexValue4?_hex hlt
      rw [unicodeEscape_eq, hex_four]
      simp [unicodeEscape?, hvalue, hhigh, hnext, hlow]
  · obtain ⟨m, ms, rfl⟩ := List.exists_cons_of_ne_nil hne
    simp [unicodeEscape?, hvalue, hhigh]

theorem unicodeEscape?_pair {high low : Nat} (hhigh : isHighHalf high = true)
    (hlow : isLowHalf low = true) {more : Text} (hne : more ≠ []) :
    unicodeEscape? (hex 4 high ++ (unicodeEscape low ++ more)) = .ok (ofHalves high low, 10) := by
  have hbounds : high < 0x10000 ∧ low < 0x10000 := by
    simp only [isHighHalf, isLowHalf, Bool.and_eq_true, decide_eq_true_eq] at hhigh hlow
    omega
  obtain ⟨m, ms, rfl⟩ := List.exists_cons_of_ne_nil hne
  have hfirst := hexValue4?_hex hbounds.1
  have hsecond := hexValue4?_hex hbounds.2
  rw [unicodeEscape_eq, hex_four, hex_four]
  simp [unicodeEscape?, hfirst, hsecond, hhigh, hlow]

theorem readString_skip (start run done rest : Text) :
    readString start run.length done (run ++ rest) = readString start 0 done rest := by
  induction run with
  | nil => rfl
  | cons c cs ih => rw [List.length_cons, List.cons_append, readString, ih]

/-- An escape by number is read as what its digits, and perhaps those after it, stand for. -/
theorem readString_unit (start done : Text) {n : Nat} {rest more : Text} {c : CodePoint}
    (h : unicodeEscape? (hex 4 n ++ (rest ++ more)) = .ok (c, rest.length + 4)) :
    readString start 0 done (unicodeEscape n ++ (rest ++ more)) =
      readString start 0 (c :: done) more := by
  have hskip := readString_skip start (.char 'u' :: (hex 4 n ++ rest)) (c :: done) more
  have hlength : (CodePoint.char 'u' :: (hex 4 n ++ rest)).length = rest.length + 4 + 1 := by
    rw [hex_four]
    simp only [List.length_cons, List.length_append, List.length_nil]
    omega
  rw [hlength, List.cons_append, List.append_assoc] at hskip
  rw [unicodeEscape_eq, List.cons_append, List.cons_append, readString, if_neg (by decide),
    if_pos rfl]
  change (unicodeEscape? (hex 4 n ++ (rest ++ more)) >>= fun found =>
    readString start (found.2 + 1) (found.1 :: done)
      (.char 'u' :: (hex 4 n ++ (rest ++ more)))) = _
  rw [h]
  exact hskip

theorem isLowHalf_of_isHighHalf {n : Nat} (h : isHighHalf n = true) : isLowHalf n = false := by
  simp only [isHighHalf, isLowHalf, Bool.and_eq_true, decide_eq_true_eq, Bool.and_eq_false_iff,
    decide_eq_false_iff_not] at h ⊢
  omega

theorem not_isUnit_quote (rest : Text) : ¬ IsUnit (.char '"' :: rest) := by
  rintro ⟨_, h⟩
  simp at h

theorem partsHalves_stringPoint {d : CodePoint} (hd : isLowHalf d.number = false) {more : Text}
    (hne : more ≠ []) : PartsHalves (stringPoint true d ++ more) := by
  have hprinted := printedPoint_stringPoint d
  generalize stringPoint true d = printed at hprinted
  cases hprinted with
  | plain _ hback _ _ =>
    refine Or.inl ?_
    rintro ⟨rest, h⟩
    exact hback (List.cons.inj h).1
  | simple e he _ =>
    refine Or.inl ?_
    rintro ⟨rest, h⟩
    have hu := (List.cons.inj (List.cons.inj h).2).1
    rw [CodePoint.char.injEq] at hu
    rw [hu] at he
    revert he
    decide
  | unit hlt => exact Or.inr ⟨d.number, more, rfl, hne, hlt, hd⟩
  | pair high low hhigh _ _ =>
    have hlt : high < 0x10000 := by
      simp only [isHighHalf, Bool.and_eq_true, decide_eq_true_eq] at hhigh
      omega
    exact Or.inr ⟨high, unicodeEscape low ++ more, by rw [List.append_assoc], by simp [hne], hlt,
      isLowHalf_of_isHighHalf hhigh⟩

/-- A printed code point is read back, unless it is a high half before a low one. -/
theorem readString_stringPoint (start done : Text) (c : CodePoint) {more : Text} (hne : more ≠ [])
    (h : isHighHalf c.number = false ∨ PartsHalves more) :
    readString start 0 done (stringPoint true c ++ more) = readString start 0 (c :: done) more := by
  have hprinted := printedPoint_stringPoint c
  generalize stringPoint true c = printed at hprinted
  cases hprinted with
  | plain hquote hback hlow _ =>
    have hcontrol : ¬ c.number < 32 := by omega
    rw [List.singleton_append, readString.eq_def]
    simp only [hquote, hback, hcontrol, if_false]
  | simple e he hc =>
    simp only [List.mem_cons, List.not_mem_nil, or_false] at he
    rcases he with rfl | rfl | rfl | rfl | rfl | rfl | rfl <;> cases hc <;> rfl
  | unit hlt =>
    have hunit := unicodeEscape?_alone hlt hne h
    rw [CodePoint.ofNumber_number, ← List.nil_append more] at hunit
    have hread := readString_unit start done hunit
    exact hread
  | pair high low hhigh hlow hc =>
    have hunits := unicodeEscape?_pair hhigh hlow hne
    rw [hc] at hunits
    rw [List.append_assoc]
    exact readString_unit start done hunits

theorem readString_halves (start done : Text) {c d : CodePoint} (hc : isHighHalf c.number = true)
    (hd : isLowHalf d.number = true) {more : Text} (hne : more ≠ []) :
    readString start 0 done (stringPoint true c ++ (stringPoint true d ++ more)) =
      readString start 0 (ofHalves c.number d.number :: done) more := by
  have hunit : ∀ e : CodePoint, 0xD800 ≤ e.number → e.number < 0xE000 →
      stringPoint true e = unicodeEscape e.number := by
    intro e hlow hhigh
    have hchar : ∀ x : Char, x.toNat < 0xD800 → e ≠ .char x := by
      rintro x hx rfl
      change 0xD800 ≤ x.toNat at hlow
      omega
    have houtside : (decide (e.number < 32) || (true && decide (127 ≤ e.number))) = true := by
      rw [Bool.true_and, Bool.or_eq_true, decide_eq_true_eq, decide_eq_true_eq]
      omega
    rw [stringPoint, if_neg (hchar _ (by decide)), if_neg (hchar _ (by decide)),
      if_neg (hchar _ (by decide)), if_neg (hchar _ (by decide)), if_neg (hchar _ (by decide)),
      if_neg (by omega), if_neg (by omega), if_pos houtside, escaped, if_pos (by omega)]
  have hbounds : 0xD800 ≤ c.number ∧ c.number < 0xE000 ∧ 0xD800 ≤ d.number ∧ d.number < 0xE000 := by
    simp only [isHighHalf, isLowHalf, Bool.and_eq_true, decide_eq_true_eq] at hc hd
    omega
  rw [hunit c hbounds.1 hbounds.2.1, hunit d hbounds.2.2.1 hbounds.2.2.2]
  exact readString_unit start done (unicodeEscape?_pair hc hd hne)

/-- What is read for a printed text: halves that make a pair are joined. -/
def joined : Text → Text
  | [] => []
  | [c] => [c]
  | c :: d :: rest =>
    if isHighHalf c.number && isLowHalf d.number then ofHalves c.number d.number :: joined rest
    else c :: joined (d :: rest)

/-- No surrogate pair stands as its two halves. Only such a text has a written form in which each of
    its code points can be told. -/
def WellPaired (s : Text) : Prop :=
  s.IsChain fun c d => ¬ (isHighHalf c.number = true ∧ isLowHalf d.number = true)

theorem joined_of_wellPaired {s : Text} (h : WellPaired s) : joined s = s := by
  fun_induction joined s with
  | case1 => rfl
  | case2 c => rfl
  | case3 c d rest hpair ih =>
    rw [Bool.and_eq_true] at hpair
    exact absurd hpair (List.isChain_cons_cons.mp h).1
  | case4 c d rest hpair ih => rw [ih (List.isChain_cons_cons.mp h).2]

theorem joined_ne_nil {s : Text} (h : s ≠ []) : joined s ≠ [] := by
  fun_cases joined s with
  | case1 => exact absurd rfl h
  | case2 c => simp
  | case3 c d rest hpair => simp
  | case4 c d rest hpair => simp

theorem readString_text (start done s rest : Text) :
    readString start 0 done (s.flatMap (stringPoint true) ++ .char '"' :: rest) =
      .ok (done.reverse ++ joined s, rest) := by
  fun_induction joined s generalizing done with
  | case1 => rw [List.append_nil]; rfl
  | case2 c =>
    rw [List.flatMap_singleton, readString_stringPoint start done c (List.cons_ne_nil _ _)
      (Or.inr (Or.inl (not_isUnit_quote rest)))]
    change Except.ok ((c :: done).reverse, rest) = _
    rw [List.reverse_cons]
  | case3 c d more hpair ih =>
    rw [Bool.and_eq_true] at hpair
    rw [List.flatMap_cons, List.flatMap_cons, List.append_assoc, List.append_assoc,
      readString_halves start done hpair.1 hpair.2 (by simp), ih]
    simp
  | case4 c d more hpair ih =>
    have hfollow : isHighHalf c.number = false ∨
        PartsHalves ((d :: more).flatMap (stringPoint true) ++ .char '"' :: rest) := by
      by_cases hc : isHighHalf c.number = true
      · have hd : isLowHalf d.number = false := by simpa [hc] using hpair
        rw [List.flatMap_cons, List.append_assoc]
        exact Or.inr (partsHalves_stringPoint hd (by simp))
      · exact Or.inl (by simpa using hc)
    rw [List.flatMap_cons, List.append_assoc,
      readString_stringPoint start done c (by simp) hfollow, ih]
    simp

def IsPrinted (c : CodePoint) : Prop := 32 ≤ c.number ∧ c.number < 127

theorem isPrinted_hexDigit (n : Nat) :
    IsPrinted (.char (hexDigit n)) ∧ CodePoint.char (hexDigit n) ≠ .char '/' := by
  have hdigits : ∀ k < 16, (32 ≤ ("0123456789abcdef".toList.getD k '0').toNat ∧
      ("0123456789abcdef".toList.getD k '0').toNat < 127) ∧
      CodePoint.char ("0123456789abcdef".toList.getD k '0') ≠ .char '/' := by decide
  exact hdigits (n % 16) (Nat.mod_lt n (by decide))

theorem mem_unicodeEscape {n : Nat} {x : CodePoint} (h : x ∈ unicodeEscape n) :
    IsPrinted x ∧ x ≠ .char '/' := by
  rw [unicodeEscape_eq, hex_four] at h
  simp only [List.mem_cons, List.not_mem_nil, or_false] at h
  rcases h with rfl | rfl | rfl | rfl | rfl | rfl
  · exact ⟨by unfold IsPrinted; decide, by decide⟩
  · exact ⟨by unfold IsPrinted; decide, by decide⟩
  · exact isPrinted_hexDigit _
  · exact isPrinted_hexDigit _
  · exact isPrinted_hexDigit _
  · exact isPrinted_hexDigit _

/-- A code point is printed as itself, or by an escape that has no solidus. -/
theorem stringPoint_self_or_escape (c : CodePoint) :
    (∀ x ∈ stringPoint true c, IsPrinted x) ∧ (stringPoint true c = [c] ∨
      (∃ rest, stringPoint true c = .char '\\' :: rest) ∧ .char '/' ∉ stringPoint true c) := by
  have hprinted := printedPoint_stringPoint c
  generalize stringPoint true c = printed at hprinted
  cases hprinted with
  | plain _ _ hlow hhigh =>
    refine ⟨fun x hx => ?_, Or.inl rfl⟩
    rw [List.mem_singleton.mp hx]
    exact ⟨hlow, hhigh⟩
  | simple e he _ =>
    have hall : ∀ e ∈ ['"', '\\', 'n', 'r', 't', 'b', 'f'],
        (32 ≤ e.toNat ∧ e.toNat < 127) ∧ CodePoint.char e ≠ .char '/' := by simp
    refine ⟨fun x hx => ?_, Or.inr ⟨⟨_, rfl⟩, fun hx => ?_⟩⟩
    · rcases List.mem_cons.mp hx with rfl | hx
      · unfold IsPrinted
        decide
      · rw [List.mem_singleton.mp hx]
        exact (hall e he).1
    · rcases List.mem_cons.mp hx with hx | hx
      · exact absurd hx (by decide)
      · exact (hall e he).2 (List.mem_singleton.mp hx).symm
  | unit =>
    exact ⟨fun x hx => (mem_unicodeEscape hx).1,
      Or.inr ⟨⟨_, rfl⟩, fun hx => (mem_unicodeEscape hx).2 rfl⟩⟩
  | pair high low _ _ _ =>
    have hmem : ∀ x ∈ unicodeEscape high ++ unicodeEscape low, IsPrinted x ∧ x ≠ .char '/' := by
      intro x hx
      rcases List.mem_append.mp hx with hx | hx
      · exact mem_unicodeEscape hx
      · exact mem_unicodeEscape hx
    exact ⟨fun x hx => (hmem x hx).1, Or.inr ⟨⟨_, rfl⟩, fun hx => (hmem _ hx).2 rfl⟩⟩

end ElementCompiler.Json
