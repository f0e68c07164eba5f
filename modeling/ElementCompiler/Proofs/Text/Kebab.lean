import ElementCompiler.Proofs.Text.Words
import ElementCompiler.Text.Literal

set_option autoImplicit false

/-!
Kebab case by words: the words of a text in lower case with a hyphen between neighbours. Since no letter
and no digit lies between words it keeps every letter and digit, and it is its own kebab case.
-/

namespace ElementCompiler.Text

section Kebab

variable {ws : List Text}

/-- Words with a hyphen before each. -/
def hyphened (ws : List Text) : Text := ws.flatMap fun w => .char '-' :: w

theorem join_cons (w : Text) (ws : List Text) : join "-" (w :: ws) = w ++ hyphened ws := by
  induction ws generalizing w with
  | nil => rw [join_singleton, hyphened, List.flatMap_nil, List.append_nil]
  | cons v ws ih =>
    rw [join_cons_cons, ih, List.append_assoc]
    rfl

/-- What is written once a word was read has a hyphen before every word. -/
theorem kebabFrom_eq_hyphened (s : Text) :
    kebabFrom .between s = hyphened ((kebabWords s).map (List.map smallPoint)) := by
  induction s using wordInduction with
  | nil =>
    rw [kebabWords]
    rfl
  | other c cs hc hsame ih =>
    rw [kebabFrom_skip hc, hsame]
    exact ih
  | word c run rest hc hword hwords ih =>
    rw [kebabFrom_between hc, hword.written, ih, hwords]
    rfl

theorem kebab_eq_join (s : Text) : kebab s = join "-" ((kebabWords s).map lower) := by
  have hlower : (kebabWords s).map lower = (kebabWords s).map (List.map smallPoint) :=
    List.map_congr_left fun w hw => lower_alphanumeric (kebabWords_alphanumeric s w hw).2
  rw [hlower, kebab]
  clear hlower
  induction s using wordInduction with
  | nil =>
    rw [kebabWords]
    rfl
  | other c cs hc hsame ih =>
    rw [kebabFrom_skip hc, hsame]
    exact ih
  | word c run rest hc hword hwords ih =>
    rw [kebabFrom_start hc, hword.written, kebabFrom_eq_hyphened, hwords, List.map_cons, join_cons]
    rfl

/-- A word of kebab case. -/
def IsKebabWord (w : Text) : Prop := w ≠ [] ∧ ∀ c ∈ w, c.is isLowerOrDigit = true

theorem isKebabWord_lower {w : Text} (h : w ≠ [] ∧ ∀ c ∈ w, c.is Char.isAlphanum = true) : IsKebabWord (lower w) := by
  rw [lower_alphanumeric h.2]
  constructor
  · exact fun hnil => h.1 (List.map_eq_nil_iff.mp hnil)
  · refine List.forall_mem_map.mpr fun c hc => ?_
    have halnum := h.2 c hc
    cases c with
    | half n => cases halnum
    | char c => exact isLowerOrDigit_toLower halnum

theorem IsKebabWord.filter {w : Text} (h : IsKebabWord w) : w.filter (· != .char '-') = w := by
  apply List.filter_eq_self.mpr
  intro c hc
  rw [bne_iff_ne]
  rintro rfl
  cases h.2 _ hc

theorem filter_hyphened (h : ∀ w ∈ ws, IsKebabWord w) : (hyphened ws).filter (· != .char '-') = ws.flatten := by
  induction ws with
  | nil => rfl
  | cons w ws ih =>
    obtain ⟨hw, hws⟩ := List.forall_mem_cons.mp h
    have hcons : hyphened (w :: ws) = .char '-' :: (w ++ hyphened ws) := rfl
    rw [hcons, List.filter_cons_of_neg (by simp), List.filter_append, hw.filter, ih hws, List.flatten_cons]

theorem filter_join (h : ∀ w ∈ ws, IsKebabWord w) : (join "-" ws).filter (· != .char '-') = ws.flatten := by
  cases ws with
  | nil => rfl
  | cons w ws =>
    obtain ⟨hw, hws⟩ := List.forall_mem_cons.mp h
    rw [join_cons, List.filter_append, hw.filter, filter_hyphened hws, List.flatten_cons]

/-- A kebab word is read as one word, up to the hyphen or the end. -/
theorem kebabFrom_kebabWord {c : Char} {run : Text} (h : IsKebabWord (.char c :: run)) (ws : List Text) :
    kebabFrom (.begun c) (run ++ hyphened ws) = run ++ kebabFrom .between (hyphened ws) := by
  obtain ⟨hc, hrun⟩ := List.forall_mem_cons.mp h.2
  have hother : ∀ d ∈ (hyphened ws).head?, d.is isLowerOrDigit = false := by
    cases ws with
    | nil => exact fun d hd => nomatch hd
    | cons w ws =>
      intro d hd
      obtain rfl := Option.some.inj hd
      rfl
  rw [WordState.begun, (small_of_isLowerOrDigit hc).1, if_neg Bool.false_ne_true, kebabFrom_small,
    List.takeWhile_append_of_pos hrun, List.dropWhile_append_of_pos hrun, takeWhile_of_head hother,
    dropWhile_of_head hother, List.append_nil]

theorem IsKebabWord.exists_cons {w : Text} (h : IsKebabWord w) : ∃ c run, w = .char c :: run ∧
    c.isAlphanum = true ∧ c.toLower = c := by
  match w, h with
  | [], h => exact absurd rfl h.1
  | .half n :: run, h => cases h.2 _ List.mem_cons_self
  | .char c :: run, h =>
    have hc : isLowerOrDigit c = true := h.2 _ List.mem_cons_self
    exact ⟨c, run, rfl, isAlphanum_of_isLowerOrDigit hc, (small_of_isLowerOrDigit hc).2⟩

theorem kebabFrom_hyphened (h : ∀ w ∈ ws, IsKebabWord w) : kebabFrom .between (hyphened ws) = hyphened ws := by
  induction ws with
  | nil => rfl
  | cons w ws ih =>
    obtain ⟨hw, hws⟩ := List.forall_mem_cons.mp h
    obtain ⟨c, run, rfl, hc, hsame⟩ := hw.exists_cons
    have hcons : hyphened ((.char c :: run) :: ws) = .char '-' :: .char c :: (run ++ hyphened ws) := rfl
    have hhyphen : (CodePoint.char '-').is Char.isAlphanum = false := rfl
    rw [hcons, kebabFrom_skip hhyphen, WordState.leave, kebabFrom_between hc, kebabFrom_kebabWord hw, ih hws, hsame]
    simp

/-- Kebab words with hyphens between them stay as they are. -/
theorem kebab_join (h : ∀ w ∈ ws, IsKebabWord w) : kebab (join "-" ws) = join "-" ws := by
  cases ws with
  | nil => rfl
  | cons w ws =>
    obtain ⟨hw, hws⟩ := List.forall_mem_cons.mp h
    obtain ⟨c, run, rfl, hc, hsame⟩ := hw.exists_cons
    rw [join_cons, List.cons_append, kebab, kebabFrom_start hc, kebabFrom_kebabWord hw, kebabFrom_hyphened hws, hsame]

/-- Kebab case is the words of a text in lower case with a hyphen between neighbours. It keeps exactly
    the letters and digits of ASCII, in their order and in lower case, and is its own kebab case. -/
theorem kebab_keeps_letters (s : Text) :
    kebab s = join "-" ((kebabWords s).map lower) ∧ (∀ w ∈ (kebabWords s).map lower, IsKebabWord w) ∧
      (kebab s).filter (· != .char '-') = lower (s.filter (·.is Char.isAlphanum)) ∧
      kebab (kebab s) = kebab s := by
  have hwords : ∀ w ∈ (kebabWords s).map lower, IsKebabWord w :=
    List.forall_mem_map.mpr fun w hw => isKebabWord_lower (kebabWords_alphanumeric s w hw)
  refine ⟨kebab_eq_join s, hwords, ?_, ?_⟩
  · have hletters : ∀ c ∈ s.filter (·.is Char.isAlphanum), c.is Char.isAlphanum = true :=
      fun c hc => (List.mem_filter.mp hc).2
    have hlower : (kebabWords s).map lower = (kebabWords s).map (List.map smallPoint) :=
      List.map_congr_left fun w hw => lower_alphanumeric (kebabWords_alphanumeric s w hw).2
    rw [kebab_eq_join, filter_join hwords, lower_alphanumeric hletters, ← flatten_kebabWords, List.map_flatten, hlower]
  · rw [kebab_eq_join s]
    exact kebab_join hwords

end Kebab

end ElementCompiler.Text
