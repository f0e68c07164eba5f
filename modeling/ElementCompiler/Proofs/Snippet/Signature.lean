import ElementCompiler.Proofs.Snippet.SinglePass
import ElementCompiler.Proofs.Text.Trim

set_option autoImplicit false

/-!
The signature of a method as relocation sees it. Only the text up to the first quote is looked at,
and a parameter list ends at the first parenthesis, so that a signature is seen when and only when
it is plain.
-/

namespace ElementCompiler.Snippet

open Text

/-- What follows the opening parenthesis of a definition whose signature is plain: parameters without
    parentheses and quotes, a type perhaps without quotes, and the opening brace of the body. -/
inductive IsPlainSignature : Text → Prop where
  | untyped {parameters space body : Text} :
      (∀ c ∈ parameters, isNotParen c = true ∧ isNotQuote c = true) → isBlankText space = true →
      IsPlainSignature (parameters ++ .char ')' :: (space ++ .char '\x7b' :: body))
  | typed {parameters space type body : Text} :
      (∀ c ∈ parameters, isNotParen c = true ∧ isNotQuote c = true) → isBlankText space = true →
      type ≠ [] → (∀ c ∈ type, isTypeChar c = true ∧ isNotQuote c = true) →
      IsPlainSignature
        (parameters ++ .char ')' :: (space ++ .char ':' :: (type ++ .char '\x7b' :: body)))

section Blanks

variable {space : Text}

theorem isBlank_of_mem (hspace : isBlankText space = true) : ∀ c ∈ space, c.is isBlank = true :=
  List.all_eq_true.mp hspace

theorem continuesName_of_blankText (hspace : isBlankText space = true) :
    ∀ c ∈ space, continuesName c = false := by
  intro c hc
  have hblank := isBlank_of_mem hspace c hc
  cases hname : continuesName c with
  | false => rfl
  | true => simp [isBlank_of_isJoined (isJoined_of_continuesName hname)] at hblank

theorem isNotQuote_of_blankText (hspace : isBlankText space = true) :
    ∀ c ∈ space, isNotQuote c = true := by
  intro c hc
  have hblank := isBlank_of_mem hspace c hc
  by_cases hquote : c = '\'' ∨ c = '"'
  · rcases hquote with rfl | rfl <;> exact absurd hblank (by decide)
  · simp_all [isNotQuote, isQuote]

theorem dropBlank_append (hspace : isBlankText space = true) (rest : Text) :
    (space ++ rest).dropWhile (·.is isBlank) = rest.dropWhile (·.is isBlank) :=
  List.dropWhile_append_of_pos (isBlank_of_mem hspace)

theorem headIs_blank (hspace : isBlankText space = true) {rest : Text}
    (hrest : space ≠ [] ∨ headIs isJoined rest = false) :
    headIs isJoined (space ++ rest) = false := by
  cases space with
  | nil => exact hrest.resolve_left fun hne => hne rfl
  | cons c cs =>
    have hblank := isBlank_of_mem hspace c List.mem_cons_self
    cases hjoined : isJoined c with
    | false => exact hjoined
    | true => simp [isBlank_of_isJoined hjoined] at hblank

end Blanks

theorem isMethodHead_blank {gap : Text} (hgap : isBlankText gap = true) (after : Text) :
    isMethodHead (gap ++ after) = isMethodHead after := by
  rw [isMethodHead, isMethodHead, dropBlank_append hgap]

theorem isMethodHead_of_isPlainSignature {rest : Text} (hrest : IsPlainSignature rest) :
    isMethodHead (.char '(' :: rest.takeWhile isNotQuote) = true := by
  have hopen : ∀ t : Text, (CodePoint.char '(' :: t).dropWhile (·.is isBlank) = .char '(' :: t :=
    fun _ => rfl
  have hclose : ∀ t : Text, headIs isNotParen (.char ')' :: t) = false := fun _ => rfl
  rw [isMethodHead, hopen]
  cases hrest with
  | @untyped parameters space body hparameters hspace =>
    have hbody : ∀ t : Text, headIs (·.is isBlank) (.char '\x7b' :: t) = false := fun _ => rfl
    rw [List.takeWhile_append_of_pos fun c hc => (hparameters c hc).2,
      List.takeWhile_cons_of_pos (by decide),
      List.takeWhile_append_of_pos (isNotQuote_of_blankText hspace),
      List.takeWhile_cons_of_pos (by decide)]
    simp only [dropWhile_run (fun c hc => (hparameters c hc).1) (hclose _),
      dropWhile_run (isBlank_of_mem hspace) (hbody _)]
  | @typed parameters space type body hparameters hspace hne htype =>
    have hcolon : ∀ t : Text, headIs (·.is isBlank) (.char ':' :: t) = false := fun _ => rfl
    have hbody : ∀ t : Text, headIs isTypeChar (.char '\x7b' :: t) = false := fun _ => rfl
    rw [List.takeWhile_append_of_pos fun c hc => (hparameters c hc).2,
      List.takeWhile_cons_of_pos (by decide),
      List.takeWhile_append_of_pos (isNotQuote_of_blankText hspace),
      List.takeWhile_cons_of_pos (by decide), List.takeWhile_append_of_pos fun c hc => (htype c hc).2,
      List.takeWhile_cons_of_pos (by decide)]
    obtain ⟨c, cs, rfl⟩ := List.exists_cons_of_ne_nil hne
    simp only [dropWhile_run (fun c hc => (hparameters c hc).1) (hclose _),
      dropWhile_run (isBlank_of_mem hspace) (hcolon _),
      dropWhile_run (fun c hc => (htype c hc).1) (hbody _)]
    simp [headIs, (htype c List.mem_cons_self).1]

theorem eq_append_of_dropWhile {p : CodePoint → Bool} {s rest : Text} {c : CodePoint}
    (hs : s.dropWhile p = c :: rest) : ∃ first, s = first ++ c :: rest ∧ ∀ d ∈ first, p d = true :=
  ⟨s.takeWhile p, by rw [← hs, List.takeWhile_append_dropWhile],
    fun _ hd => List.mem_takeWhile_imp hd⟩

theorem isPlainSignature_of_isMethodHead {rest : Text}
    (hseen : isMethodHead (.char '(' :: rest.takeWhile isNotQuote) = true) :
    IsPlainSignature rest := by
  have hrest := List.takeWhile_append_dropWhile (p := isNotQuote) (l := rest)
  have hquote : ∀ c ∈ rest.takeWhile isNotQuote, isNotQuote c = true := fun c hc =>
    List.mem_takeWhile_imp hc
  -- the run before the first quote is read like any other text without quotes
  generalize rest.takeWhile isNotQuote = run at hseen hrest hquote
  generalize rest.dropWhile isNotQuote = tail at hrest
  subst hrest
  have hopen : (CodePoint.char '(' :: run).dropWhile (·.is isBlank) = .char '(' :: run := rfl
  rw [isMethodHead, hopen] at hseen
  split at hseen
  next after hlist =>
    obtain rfl := (List.cons.inj hlist).2
    split at hseen
    next after hclose =>
      obtain ⟨parameters, rfl, hparens⟩ := eq_append_of_dropWhile hclose
      rw [List.forall_mem_append, List.forall_mem_cons] at hquote
      have hparameters : ∀ c ∈ parameters, isNotParen c = true ∧ isNotQuote c = true :=
        fun c hc => ⟨hparens c hc, hquote.1 c hc⟩
      split at hseen
      next body hbody =>
        obtain ⟨space, rfl, hspace⟩ := eq_append_of_dropWhile hbody
        have hplain : IsPlainSignature
            (parameters ++ .char ')' :: (space ++ .char '\x7b' :: (body ++ tail))) :=
          .untyped hparameters (List.all_eq_true.mpr hspace)
        simpa using hplain
      next typed htyped =>
        obtain ⟨space, rfl, hspace⟩ := eq_append_of_dropWhile htyped
        rw [Bool.and_eq_true] at hseen
        obtain ⟨body, hbody⟩ : ∃ body, typed.dropWhile isTypeChar = .char '\x7b' :: body := by
          cases hdrop : typed.dropWhile isTypeChar with
          | nil => simp [hdrop, headIs] at hseen
          | cons c cs => exact ⟨cs, by simpa [hdrop, headIs] using hseen.2⟩
        obtain ⟨type, rfl, hchars⟩ := eq_append_of_dropWhile hbody
        have hne : type ≠ [] := by
          rintro rfl
          exact absurd hseen.1 (by simp [headIs, isTypeChar])
        have htype : ∀ c ∈ type, isTypeChar c = true ∧ isNotQuote c = true := fun c hc =>
          ⟨hchars c hc, hquote.2.2 c (by simp [hc])⟩
        have hplain : IsPlainSignature (parameters ++ .char ')' :: (space ++ .char ':' ::
            (type ++ .char '\x7b' :: (body ++ tail)))) :=
          .typed hparameters (List.all_eq_true.mpr hspace) hne htype
        simpa using hplain
      next => cases hseen
    next => cases hseen
  next => cases hseen

/-- A parameter list shows that a method is defined exactly when the signature is plain. -/
theorem isMethodHead_signature {rest : Text} :
    isMethodHead (.char '(' :: rest.takeWhile isNotQuote) = true ↔ IsPlainSignature rest :=
  ⟨isPlainSignature_of_isMethodHead, isMethodHead_of_isPlainSignature⟩

end ElementCompiler.Snippet
