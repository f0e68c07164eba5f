import ElementCompiler.Proofs.Text.Class
import ElementCompiler.Snippet.Occurrence
import Mathlib.Data.List.TakeWhile

set_option autoImplicit false

/-!
What a binding position depends on. Whether a name is used or declared is read off the text around
it, and that text changes while names are relocated. Ahead of a place only the words may change,
where a word is made of characters that continue names and of points; behind it only what stands
before the nearest name. Neither change moves a binding position.
-/

namespace ElementCompiler.Snippet

open Text

theorem isBlank_of_isJoined {c : CodePoint} (h : isJoined c = true) : c.is isBlank = false := by
  rcases Bool.or_eq_true_iff.mp h with hc | hc
  · exact is_isBlank_of_isMember hc
  · rw [beq_iff_eq.mp hc]
    rfl

theorem isJoined_of_continuesName {c : CodePoint} (h : continuesName c = true) :
    isJoined c = true := by
  rw [isJoined, h, Bool.true_or]

theorem continuesName_of_isWord {c : CodePoint} (h : c.is isWord = true) :
    continuesName c = true := by
  cases c with
  | half n => simp [CodePoint.is] at h
  | char c => exact isMember_of_isWord h

/-- Two texts that are the same but for their words. -/
inductive SameAhead : Text → Text → Prop where
  | nil : SameAhead [] []
  | keep (c : CodePoint) {s t : Text} : SameAhead s t → SameAhead (c :: s) (c :: t)
  | word {v w s t : Text} : v ≠ [] → w ≠ [] → (∀ c ∈ v, isJoined c = true) →
      (∀ c ∈ w, isJoined c = true) → SameAhead s t → SameAhead (v ++ s) (w ++ t)

namespace SameAhead

theorem symm {s t : Text} (h : SameAhead s t) : SameAhead t s := by
  induction h with
  | nil => exact nil
  | keep c _ ih => exact keep c ih
  | word hv hw hvj hwj _ ih => exact word hw hv hwj hvj ih

theorem eq_nil {t : Text} (h : SameAhead [] t) : t = [] := by
  generalize he : ([] : Text) = s at h
  cases h with
  | nil => rfl
  | keep c _ => simp at he
  | word hv _ _ _ _ => exact absurd (List.append_eq_nil_iff.mp he.symm).1 hv

/-- A class that has all characters of words, or none of them. -/
def Uniform (p : CodePoint → Bool) : Prop :=
  (∀ c, isJoined c = true → p c = true) ∨ ∀ c, isJoined c = true → p c = false

theorem uniform_isBlank : Uniform (·.is isBlank) := Or.inr fun _ h => isBlank_of_isJoined h

theorem dropWhile {p : CodePoint → Bool} (hp : Uniform p) {s t : Text} (h : SameAhead s t) :
    SameAhead (s.dropWhile p) (t.dropWhile p) := by
  induction h with
  | nil => exact nil
  | @keep c s t hst ih =>
    by_cases hc : p c = true
    · simpa [hc] using ih
    · simpa [hc] using keep c hst
  | @word v w s t hv hw hvj hwj hst ih =>
    rcases hp with hp | hp
    · rwa [List.dropWhile_append_of_pos fun c hc => hp c (hvj c hc),
        List.dropWhile_append_of_pos fun c hc => hp c (hwj c hc)]
    · have hstay : ∀ {u rest : Text}, u ≠ [] → (∀ c ∈ u, isJoined c = true) →
          (u ++ rest).dropWhile p = u ++ rest := by
        intro u rest hu huj
        obtain ⟨c, cs, rfl⟩ := List.exists_cons_of_ne_nil hu
        simp [hp c (huj c List.mem_cons_self)]
      rw [hstay hv hvj, hstay hw hwj]
      exact word hv hw hvj hwj hst

theorem headIs_eq {p : CodePoint → Bool} (hp : Uniform p) {s t : Text} (h : SameAhead s t) :
    headIs p s = headIs p t := by
  cases h with
  | nil => rfl
  | keep c _ => rfl
  | word hv hw hvj hwj _ =>
    obtain ⟨c, cs, rfl⟩ := List.exists_cons_of_ne_nil hv
    obtain ⟨d, ds, rfl⟩ := List.exists_cons_of_ne_nil hw
    have hc := hvj c List.mem_cons_self
    have hd := hwj d List.mem_cons_self
    rcases hp with hp | hp
    · exact (hp c hc).trans (hp d hd).symm
    · exact (hp c hc).trans (hp d hd).symm

/-- A character that belongs to no word is there on both sides. -/
theorem exists_cons {c : CodePoint} (hc : isJoined c = false) {s t : Text}
    (h : SameAhead (c :: s) t) : ∃ u, t = c :: u ∧ SameAhead s u := by
  generalize he : c :: s = r at h
  cases h with
  | nil => simp at he
  | @keep d s' u hst =>
    obtain ⟨rfl, rfl⟩ := List.cons.inj he
    exact ⟨u, rfl, hst⟩
  | @word v w s' t' hv hw hvj hwj hst =>
    obtain ⟨d, ds, rfl⟩ := List.exists_cons_of_ne_nil hv
    obtain ⟨rfl, _⟩ := List.cons.inj he
    exact absurd (hvj c List.mem_cons_self) (by simp [hc])

/-- The text after a class of characters begins with the same character that belongs to no word. -/
theorem exists_dropWhile {p : CodePoint → Bool} (hp : Uniform p) {s t : Text} (h : SameAhead s t)
    {c : CodePoint} (hc : isJoined c = false) {rest : Text} (hs : s.dropWhile p = c :: rest) :
    ∃ u, t.dropWhile p = c :: u ∧ SameAhead rest u := by
  have hd := h.dropWhile hp
  rw [hs] at hd
  exact exists_cons hc hd

theorem uniform_isNotParen : Uniform isNotParen := by
  refine Or.inl fun c h => ?_
  simp only [isNotParen, Bool.and_eq_true, bne_iff_ne]
  exact ⟨by rintro rfl; revert h; decide, by rintro rfl; revert h; decide⟩

theorem uniform_isTypeChar : Uniform isTypeChar := by
  refine Or.inl fun c h => ?_
  simp only [isTypeChar, Bool.and_eq_true, bne_iff_ne]
  exact ⟨by rintro rfl; revert h; decide, by rintro rfl; revert h; decide⟩

theorem uniform_beq {c : CodePoint} (hc : isJoined c = false) : Uniform (· == c) := by
  refine Or.inr fun d h => ?_
  rw [beq_eq_false_iff_ne]
  rintro rfl
  simp [hc] at h

theorem isMethodHead_of {s t : Text} (h : SameAhead s t) (hs : isMethodHead s = true) :
    isMethodHead t = true := by
  unfold isMethodHead at hs
  split at hs
  next a ha =>
    split at hs
    next b hb =>
      obtain ⟨a', ha', hsame⟩ := h.exists_dropWhile uniform_isBlank (by decide) ha
      obtain ⟨b', hb', hsame⟩ := hsame.exists_dropWhile uniform_isNotParen (by decide) hb
      split at hs
      next d hd =>
        obtain ⟨d', hd', _⟩ := hsame.exists_dropWhile uniform_isBlank (by decide) hd
        simp [isMethodHead, ha', hb', hd']
      next d hd =>
        obtain ⟨d', hd', hsame⟩ := hsame.exists_dropWhile uniform_isBlank (by decide) hd
        have hfirst := hsame.headIs_eq uniform_isTypeChar
        have hlast := (hsame.dropWhile uniform_isTypeChar).headIs_eq
          (uniform_beq (c := .char '\x7b') (by decide))
        simp only [isMethodHead, ha', hb', hd', ← hfirst, ← hlast]
        exact hs
      next => simp at hs
    next => simp at hs
  next => simp at hs

theorem isMethodHead_eq {s t : Text} (h : SameAhead s t) : isMethodHead s = isMethodHead t :=
  Bool.eq_iff_iff.mpr ⟨isMethodHead_of h, isMethodHead_of h.symm⟩

theorem isKeyHead_of {s t : Text} (h : SameAhead s t) (hs : isKeyHead s = true) :
    isKeyHead t = true := by
  unfold isKeyHead at hs
  split at hs
  next a ha =>
    obtain ⟨a', ha', hsame⟩ := h.exists_dropWhile uniform_isBlank (by decide) ha
    have hhead := hsame.headIs_eq (uniform_beq (c := .char ':') (by decide))
    simp only [isKeyHead, ha', ← hhead]
    exact hs
  next => simp at hs

theorem isKeyHead_eq {s t : Text} (h : SameAhead s t) : isKeyHead s = isKeyHead t :=
  Bool.eq_iff_iff.mpr ⟨isKeyHead_of h, isKeyHead_of h.symm⟩

end SameAhead

section Runs

variable {p : CodePoint → Bool} {run rest : Text}

theorem takeWhile_run (hrun : ∀ c ∈ run, p c = true) (hrest : headIs p rest = false) :
    (run ++ rest).takeWhile p = run := by
  rw [List.takeWhile_append_of_pos hrun]
  cases rest with
  | nil => simp
  | cons c cs => simp_all [headIs]

theorem dropWhile_of_headIs (hrest : headIs p rest = false) : rest.dropWhile p = rest := by
  cases rest with
  | nil => rfl
  | cons c cs => exact List.dropWhile_cons_of_neg (by simpa [headIs] using hrest)

theorem dropWhile_run (hrun : ∀ c ∈ run, p c = true) (hrest : headIs p rest = false) :
    (run ++ rest).dropWhile p = rest := by
  rw [List.dropWhile_append_of_pos hrun, dropWhile_of_headIs hrest]

end Runs

theorem takeWhile_append_of_headIs {p : CodePoint → Bool} (s : Text) {t : Text}
    (ht : headIs p t = false) : (s ++ t).takeWhile p = s.takeWhile p := by
  induction s with
  | nil =>
    cases t with
    | nil => rfl
    | cons c cs => exact List.takeWhile_cons_of_neg (by simpa [headIs] using ht)
  | cons c cs ih => rw [List.cons_append, List.takeWhile_cons, List.takeWhile_cons, ih]

/-- Two texts, nearest character first, that are the same up to the nearest name. -/
inductive SameBehind : Text → Text → Prop where
  | nil : SameBehind [] []
  | keep (c : CodePoint) {s t : Text} : SameBehind s t → SameBehind (c :: s) (c :: t)
  | name {near s t : Text} : near ≠ [] → (∀ c ∈ near, continuesName c = true) →
      headIs (·.is isWord) s = false → headIs (·.is isWord) t = false →
      SameBehind (near ++ s) (near ++ t)

namespace SameBehind

theorem headIs_eq {s t : Text} (h : SameBehind s t) (p : CodePoint → Bool) :
    headIs p s = headIs p t := by
  cases h with
  | nil => rfl
  | keep c _ => rfl
  | name hn _ _ _ =>
    obtain ⟨c, cs, rfl⟩ := List.exists_cons_of_ne_nil hn
    rfl

theorem prepend (near : Text) {s t : Text} (h : SameBehind s t) :
    SameBehind (near ++ s) (near ++ t) := by
  induction near with
  | nil => exact h
  | cons c cs ih => exact keep c ih

theorem dropBlank {s t : Text} (h : SameBehind s t) :
    SameBehind (s.dropWhile (·.is isBlank)) (t.dropWhile (·.is isBlank)) := by
  induction h with
  | nil => exact nil
  | @keep c s t hst ih =>
    by_cases hc : c.is isBlank = true
    · simpa [hc] using ih
    · simpa [hc] using keep c hst
  | @name near s t hn hnear hs ht =>
    obtain ⟨c, cs, rfl⟩ := List.exists_cons_of_ne_nil hn
    have hc := isBlank_of_isJoined (isJoined_of_continuesName (hnear c List.mem_cons_self))
    simpa [hc] using name hn hnear hs ht

theorem all_isBlank {s t : Text} (h : SameBehind s t) :
    s.all (·.is isBlank) = t.all (·.is isBlank) := by
  induction h with
  | nil => rfl
  | keep c _ ih => rw [List.all_cons, List.all_cons, ih]
  | @name near s t hn hnear _ _ =>
    obtain ⟨c, cs, rfl⟩ := List.exists_cons_of_ne_nil hn
    have hc := isBlank_of_isJoined (isJoined_of_continuesName (hnear c List.mem_cons_self))
    simp [hc]

theorem takeWord {s t : Text} (h : SameBehind s t) :
    s.takeWhile (·.is isWord) = t.takeWhile (·.is isWord) := by
  induction h with
  | nil => rfl
  | keep c _ ih => rw [List.takeWhile_cons, List.takeWhile_cons, ih]
  | name _ _ hs ht => rw [takeWhile_append_of_headIs _ hs, takeWhile_append_of_headIs _ ht]

end SameBehind

/-- A word stands at the beginning and ends there when it is all that can be taken as a word. -/
theorem after?_word {w : Text} (hw : ∀ c ∈ w, c.is isWord = true) (t : Text) :
    (match after? w t with
      | some rest => !headIs (·.is isWord) rest
      | none => false) = (t.takeWhile (·.is isWord) == w) := by
  induction w generalizing t with
  | nil =>
    cases t with
    | nil => rfl
    | cons c cs => by_cases hc : c.is isWord = true <;> simp [after?, headIs, hc]
  | cons d ds ih =>
    have hd := hw d List.mem_cons_self
    have hds := ih fun c hc => hw c (List.mem_cons_of_mem d hc)
    cases t with
    | nil => rfl
    | cons c cs =>
      by_cases hdc : d = c
      · subst hdc
        simpa [after?, hd] using hds cs
      · have hcd : ¬ c = d := fun e => hdc e.symm
        by_cases hc : c.is isWord = true <;> simp [after?, hdc, hcd, hc]

theorem isWord_declarationWords :
    ∀ w ∈ declarationWords, ∀ c ∈ w.reverse, CodePoint.is isWord c = true := by
  decide

/-- Whether the nearest word, read backwards, is one that declares what stands ahead of it. -/
def declares (near : Text) : Bool :=
  declarationWords.any fun w => near.takeWhile (·.is isWord) == w.reverse

theorem endsInWord_eq_declares (s : Text) : endsInWord declarationWords s =
    (headIs (·.is isBlank) s && declares (s.dropWhile (·.is isBlank))) := by
  rw [endsInWord, declares]
  refine congrArg (headIs (·.is isBlank) s && ·) ?_
  rw [Bool.eq_iff_iff, List.any_eq_true, List.any_eq_true]
  constructor
  · rintro ⟨w, hw, hs⟩
    exact ⟨w, hw, (after?_word (isWord_declarationWords w hw) _).symm.trans hs⟩
  · rintro ⟨w, hw, hs⟩
    exact ⟨w, hw, (after?_word (isWord_declarationWords w hw) _).trans hs⟩

theorem endsInWord_eq {s t : Text} (h : SameBehind s t) :
    endsInWord declarationWords s = endsInWord declarationWords t := by
  rw [endsInWord_eq_declares, endsInWord_eq_declares, declares, declares, h.headIs_eq,
    h.dropBlank.takeWord]

theorem isKeyTail_eq {s t : Text} (h : SameBehind s t) : isKeyTail s = isKeyTail t :=
  h.dropBlank.headIs_eq _

/-- Whether a name is declared here depends on the nearest name behind it and on what stands ahead
    beside words. -/
theorem isBindingPosition_eq {before before' after after' : Text} (hb : SameBehind before before')
    (ha : SameAhead after after') :
    isBindingPosition before after = isBindingPosition before' after' := by
  rw [isBindingPosition, isBindingPosition, endsInWord_eq hb, hb.all_isBlank, ha.isMethodHead_eq,
    ha.isKeyHead_eq, isKeyTail_eq hb]

end ElementCompiler.Snippet
