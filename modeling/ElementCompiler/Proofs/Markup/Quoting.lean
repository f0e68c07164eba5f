import ElementCompiler.Markup.Tag
import ElementCompiler.Proofs.Markup.TemplateReading
import ElementCompiler.Proofs.Snippet.Blank
import ElementCompiler.Proofs.Text.Indent
import ElementCompiler.Proofs.Text.Split
import ElementCompiler.Proofs.Text.Trim

set_option autoImplicit false

/-!
Double quotes inside attribute values. Encoding leaves none; decoding reads every mark for one as a
quote, so it takes encoding back from a text that has no such mark of its own. Trimming and indenting
write and drop blanks alone, and can be done before encoding or after it.
-/

namespace ElementCompiler.Markup

open Text

/-- What stands for a double quote inside a value. -/
def quoteMark : Text := "&quot;"

/-- The value with a double quote for each mark. -/
def decodeQuotes (s : Text) : Text := replace quoteMark "\"" s

/-- A character as it is encoded. -/
def encodeQuote (c : CodePoint) : Text := if c = '"' then quoteMark else [c]

section Encoding

variable {s t : Text} {c : CodePoint}

theorem encodeQuotes_eq (s : Text) : encodeQuotes s = s.flatMap encodeQuote := replace_character '"' _ s

@[simp] theorem encodeQuotes_nil : encodeQuotes [] = [] := rfl

theorem encodeQuotes_append (s t : Text) : encodeQuotes (s ++ t) = encodeQuotes s ++ encodeQuotes t := by
  simp only [encodeQuotes_eq, List.flatMap_append]

theorem encodeQuotes_cons (c : CodePoint) (s : Text) :
    encodeQuotes (c :: s) = encodeQuote c ++ encodeQuotes s := by
  simp only [encodeQuotes_eq, List.flatMap_cons]

theorem encodeQuote_of_ne (h : c ≠ '"') : encodeQuote c = [c] := if_neg h

theorem encodeQuotes_eq_self (h : CodePoint.char '"' ∉ s) : encodeQuotes s = s := replaceFrom_eq_self h

theorem mem_encodeQuotes_iff (hc : c ≠ '"') (hmark : c ∉ quoteMark) : c ∈ encodeQuotes s ↔ c ∈ s := by
  rw [encodeQuotes_eq, List.mem_flatMap]
  constructor
  · rintro ⟨d, hd, hmem⟩
    unfold encodeQuote at hmem
    split at hmem
    next => exact absurd hmem hmark
    next => exact List.mem_singleton.mp hmem ▸ hd
  · exact fun h => ⟨c, h, by rw [encodeQuote_of_ne hc]; exact List.mem_cons_self⟩

theorem quote_notMem_encodeQuotes (s : Text) : CodePoint.char '"' ∉ encodeQuotes s := by
  rw [encodeQuotes_eq, List.mem_flatMap]
  rintro ⟨c, -, hc⟩
  unfold encodeQuote at hc
  split at hc
  next => exact absurd hc (by decide)
  next hne => exact hne (List.mem_singleton.mp hc).symm

end Encoding

section Decoding

variable {s t : Text} {c : CodePoint}

theorem decodeQuotes_mark (s : Text) : decodeQuotes (quoteMark ++ s) = .char '"' :: decodeQuotes s := by
  simp [decodeQuotes, replace, quoteMark, ofString, replaceFrom, startsWith, after?]

theorem decodeQuotes_cons (h : startsWith quoteMark (c :: s) = false) :
    decodeQuotes (c :: s) = c :: decodeQuotes s := by
  change replaceFrom quoteMark "\"" 0 (c :: s) = c :: replaceFrom quoteMark "\"" 0 s
  rw [replaceFrom, h, if_neg Bool.false_ne_true]

/-- A text begins with a mark or with a character that is kept. -/
theorem mark_or_cons (P : Text → Prop) (hnil : P []) (hmark : ∀ s, P s → P (quoteMark ++ s))
    (hcons : ∀ c s, startsWith quoteMark (c :: s) = false → P s → P (c :: s)) (s : Text) : P s := by
  induction hlength : s.length using Nat.strong_induction_on generalizing s with
  | _ n ih =>
    cases s with
    | nil => exact hnil
    | cons c s =>
      cases hstart : startsWith quoteMark (c :: s) with
      | false => exact hcons c s hstart (ih s.length (by rw [← hlength]; exact Nat.lt_succ_self _) s rfl)
      | true =>
        obtain ⟨t, ht⟩ := Option.isSome_iff_exists.mp hstart
        have hsplit := eq_append_of_after? ht
        rw [hsplit]
        refine hmark t (ih t.length ?_ t rfl)
        rw [← hlength, hsplit, List.length_append]
        exact Nat.lt_add_of_pos_left (by decide)

/-- Encoding what follows makes no mark of a text that begins with none. -/
theorem after?_encodeQuotes {pat : Text} (hpat : CodePoint.char '"' ∉ pat)
    (hmark : CodePoint.char '&' ∉ pat) (s : Text) :
    (after? pat (encodeQuotes s)).isSome = (after? pat s).isSome := by
  induction pat generalizing s with
  | nil => rfl
  | cons p pat ih =>
    rw [List.mem_cons, not_or] at hpat hmark
    cases s with
    | nil => rfl
    | cons c s =>
      by_cases hc : c = '"'
      · have hfirst : p ≠ '"' := fun h => hpat.1 h.symm
        have hencoded : p ≠ '&' := fun h => hmark.1 h.symm
        simp [encodeQuotes_cons, encodeQuote, hc, quoteMark, ofString, after?, hfirst, hencoded]
      · rw [encodeQuotes_cons, encodeQuote_of_ne hc, List.singleton_append, after?, after?]
        split
        next => exact ih hpat.2 hmark.2 s
        next => rfl

theorem startsWith_encodeQuotes (c : CodePoint) (s : Text) :
    startsWith quoteMark (c :: encodeQuotes s) = startsWith quoteMark (c :: s) := by
  change (if CodePoint.char '&' = c then after? "quot;" (encodeQuotes s) else none).isSome =
    (if CodePoint.char '&' = c then after? "quot;" s else none).isSome
  split
  next => exact after?_encodeQuotes (by decide) (by decide) s
  next => rfl

/-- Decoding an encoded text is decoding the text. -/
theorem decodeQuotes_encodeQuotes (s : Text) : decodeQuotes (encodeQuotes s) = decodeQuotes s := by
  induction s using mark_or_cons with
  | hnil => rfl
  | hmark s ih =>
    rw [encodeQuotes_append, encodeQuotes_eq_self (s := quoteMark) (by decide), decodeQuotes_mark,
      decodeQuotes_mark, ih]
  | hcons c s hstart ih =>
    rw [encodeQuotes_cons, decodeQuotes_cons hstart]
    by_cases hc : c = '"'
    · rw [encodeQuote, if_pos hc, decodeQuotes_mark, ih, hc]
    · rw [encodeQuote_of_ne hc, List.singleton_append, decodeQuotes_cons, ih]
      rw [startsWith_encodeQuotes, hstart]

theorem decodeQuotes_eq_self (h : occursIn quoteMark s = false) : decodeQuotes s = s := by
  induction s with
  | nil => rfl
  | cons c s ih =>
    rw [occursIn, Bool.or_eq_false_iff] at h
    rw [decodeQuotes_cons h.1, ih h.2]

theorem length_decodeQuotes_le (s : Text) : (decodeQuotes s).length ≤ s.length := by
  induction s using mark_or_cons with
  | hnil => rfl
  | hmark s ih =>
    rw [decodeQuotes_mark, List.length_append, List.length_cons]
    have hmark : quoteMark.length = 6 := rfl
    omega
  | hcons c s hstart ih =>
    rw [decodeQuotes_cons hstart]
    exact Nat.succ_le_succ ih

theorem length_decodeQuotes_lt (s t : Text) :
    (decodeQuotes s).length < (decodeQuotes (s ++ .char '"' :: t)).length := by
  induction s using mark_or_cons with
  | hnil =>
    rw [List.nil_append, decodeQuotes_cons rfl]
    exact Nat.zero_lt_succ _
  | hmark s ih =>
    rw [List.append_assoc, decodeQuotes_mark, decodeQuotes_mark]
    exact Nat.succ_lt_succ ih
  | hcons c s hstart ih =>
    have hstart' : startsWith quoteMark (c :: (s ++ .char '"' :: t)) = false :=
      (startsWith_append_cons (by decide) (c :: s) t).trans hstart
    rw [List.cons_append, decodeQuotes_cons hstart, decodeQuotes_cons hstart']
    exact Nat.succ_lt_succ ih

/-- Exactly a text without a mark is its own decoding. -/
theorem decodeQuotes_eq_self_iff : decodeQuotes s = s ↔ occursIn quoteMark s = false := by
  refine ⟨fun h => ?_, decodeQuotes_eq_self⟩
  induction s with
  | nil => rfl
  | cons c s ih =>
    cases hstart : startsWith quoteMark (c :: s) with
    | false =>
      rw [decodeQuotes_cons hstart, List.cons.injEq] at h
      rw [occursIn, hstart, ih h.2, Bool.or_false]
    | true =>
      obtain ⟨t, ht⟩ := Option.isSome_iff_exists.mp hstart
      have hlength := congrArg List.length h
      have hle := length_decodeQuotes_le t
      have hmark : quoteMark.length = 6 := rfl
      rw [eq_append_of_after? ht, decodeQuotes_mark, List.length_append, List.length_cons] at hlength
      omega

end Decoding

section Blanks

variable {width : Nat} {s : Text} {c : CodePoint}

theorem startsLine_encodeQuotes (s : Text) : startsLine (encodeQuotes s) = startsLine s := by
  cases s with
  | nil => rfl
  | cons c s =>
    by_cases hc : c = '"'
    · rw [hc]
      rfl
    · rw [encodeQuotes_cons, encodeQuote_of_ne hc]
      rfl

theorem indentRest_encodeQuotes (s : Text) :
    indentRest width (encodeQuotes s) = encodeQuotes (indentRest width s) := by
  induction s with
  | nil => rfl
  | cons c s ih =>
    have hpad : CodePoint.char '"' ∉ linePad width c s := by
      unfold linePad pad
      split <;> simp
    rw [indentRest_cons, encodeQuotes_cons, encodeQuotes_cons, encodeQuotes_append, encodeQuotes_eq_self hpad,
      ← ih]
    by_cases hc : c = '"'
    · rw [encodeQuote, if_pos hc, indentRest_append (by decide), linePad, if_neg (by simp [hc])]
      rfl
    · rw [encodeQuote_of_ne hc, List.singleton_append, indentRest_cons, linePad, linePad,
        startsLine_encodeQuotes]
      rfl

theorem trimStart_encodeQuotes (s : Text) : trimStart (encodeQuotes s) = encodeQuotes (trimStart s) := by
  induction s with
  | nil => rfl
  | cons c s ih =>
    by_cases hblank : c.is isBlank = true
    · have hc : c ≠ '"' := by
        rintro rfl
        exact absurd hblank (by decide)
      rw [encodeQuotes_cons, encodeQuote_of_ne hc, List.singleton_append, trimStart, trimStart,
        List.dropWhile_cons_of_pos hblank, List.dropWhile_cons_of_pos hblank]
      exact ih
    · have hkeep : trimStart (c :: s) = c :: s := List.dropWhile_cons_of_neg hblank
      rw [hkeep, encodeQuotes_cons]
      by_cases hc : c = '"'
      · rw [encodeQuote, if_pos hc]
        rfl
      · rw [encodeQuote_of_ne hc, List.singleton_append, trimStart, List.dropWhile_cons_of_neg hblank]

theorem trimEnd_encodeQuotes (s : Text) : trimEnd (encodeQuotes s) = encodeQuotes (trimEnd s) := by
  induction s using List.reverseRecOn with
  | nil => rfl
  | append_singleton s c ih =>
    rw [encodeQuotes_append, encodeQuotes_cons, encodeQuotes_nil, List.append_nil]
    by_cases hblank : c.is isBlank = true
    · have hc : c ≠ '"' := by
        rintro rfl
        exact absurd hblank (by decide)
      rw [encodeQuote_of_ne hc, trimEnd_append_blank hblank, trimEnd_append_blank hblank, ih]
    · rw [Bool.not_eq_true] at hblank
      rw [trimEnd_append hblank, encodeQuotes_append, encodeQuotes_cons, encodeQuotes_nil, List.append_nil]
      by_cases hc : c = '"'
      · have hmark : quoteMark = ofString "&quot" ++ [.char ';'] := rfl
        rw [encodeQuote, if_pos hc, hmark, ← List.append_assoc, trimEnd_append (by decide)]
      · rw [encodeQuote_of_ne hc, trimEnd_append hblank]

theorem trim_encodeQuotes (s : Text) : trim (encodeQuotes s) = encodeQuotes (trim s) := by
  rw [trim, trimStart_encodeQuotes, trimEnd_encodeQuotes, trim]

theorem continuesLine_decodeQuotes (s : Text) : continuesLine (decodeQuotes s) = continuesLine s := by
  induction s using mark_or_cons with
  | hnil => rfl
  | hmark s _ =>
    rw [decodeQuotes_mark]
    rfl
  | hcons c s hstart _ =>
    rw [decodeQuotes_cons hstart]
    rfl

theorem startsLine_decodeQuotes (s : Text) : startsLine (decodeQuotes s) = startsLine s := by
  induction s using mark_or_cons with
  | hnil => rfl
  | hmark s _ =>
    rw [decodeQuotes_mark]
    rfl
  | hcons c s hstart _ =>
    rw [decodeQuotes_cons hstart]
    rfl

theorem decodeQuotes_append (hs : CodePoint.char '&' ∉ s) (t : Text) :
    decodeQuotes (s ++ t) = s ++ decodeQuotes t := by
  induction s with
  | nil => rfl
  | cons c s ih =>
    rw [List.mem_cons, not_or] at hs
    rw [List.cons_append, decodeQuotes_cons (by simp [startsWith, after?, quoteMark, ofString, hs.1]), ih hs.2,
      List.cons_append]

section Padded

variable {f : Text → Text} {padding : CodePoint → Text → Text}

theorem after?_padded (h : PadsLines f padding) {pat : Text} (hpat : CodePoint.char '\n' ∉ pat) (s : Text) :
    (after? pat (f s)).isSome = (after? pat s).isSome := by
  induction pat generalizing s with
  | nil => rfl
  | cons p pat ih =>
    rw [List.mem_cons, not_or] at hpat
    cases s with
    | nil => rw [h.nil]
    | cons c s =>
      rw [h.cons, after?, after?]
      split
      next hc =>
        rw [h.line _ _ fun hline => hpat.1 (hc.trans hline).symm]
        exact ih hpat.2 s
      next => rfl

/-- The marks of an indented text are those of the text. -/
theorem decodeQuotes_padded (h : PadsLines f padding)
    (hsame : ∀ c s, padding c (decodeQuotes s) = padding c s) (s : Text) :
    decodeQuotes (f s) = f (decodeQuotes s) := by
  induction s using mark_or_cons with
  | hnil => exact (congrArg decodeQuotes h.nil).trans h.nil.symm
  | hmark s ih =>
    rw [h.append (by decide), decodeQuotes_mark, decodeQuotes_mark, ih, h.cons, h.line _ _ (by decide)]
    rfl
  | hcons c s hstart ih =>
    have hpad : CodePoint.char '&' ∉ padding c s := fun hmem => absurd (h.blank _ _ _ hmem) (by decide)
    have hmark : startsWith quoteMark (f (c :: s)) = false :=
      (after?_padded h (by decide) (c :: s)).trans hstart
    rw [h.cons] at hmark ⊢
    rw [decodeQuotes_cons hmark, decodeQuotes_append hpad, ih, decodeQuotes_cons hstart, h.cons, hsame]

theorem decodeQuotes_indentWithin (s : Text) :
    decodeQuotes (indentWithin width s) = indentWithin width (decodeQuotes s) := by
  refine decodeQuotes_padded (padsLines_indentWithin width) (fun c s => ?_) s
  rw [withinPad, continuesLine_decodeQuotes, withinPad]

theorem decodeQuotes_indentRest (s : Text) :
    decodeQuotes (indentRest width s) = indentRest width (decodeQuotes s) := by
  refine decodeQuotes_padded (padsLines_indentRest width) (fun c s => ?_) s
  rw [linePad, startsLine_decodeQuotes, linePad]

end Padded

end Blanks

end ElementCompiler.Markup
