import ElementCompiler.Proofs.Snippet.AddedWords
import ElementCompiler.Proofs.Snippet.Blank
import ElementCompiler.Proofs.Text.Trim
import ElementCompiler.Snippet.Block

set_option autoImplicit false

/-!
What a handler comes down to. Its parameter is renamed, and blanks and one pair of braces are taken
off; when a name is all that is left, the handler was that name between blanks and braces, or its
parameter was renamed to it.
-/

namespace ElementCompiler.Snippet

open Text

section Argument

def repeated (token : Text) (n : Nat) : Text := (List.replicate n token).flatten

variable {writes : Text → Text → Prop} {token before s t : Text}

/-- What does not begin as the token does is no row of tokens. -/
theorem ne_repeated {token name : Text} (hname : name ≠ []) (hne : name.head? ≠ token.head?) :
    ∀ n, name ≠ repeated token n := by
  rintro n rfl
  cases n with
  | zero => exact hname rfl
  | succ n =>
    cases token with
    | nil => exact hname (by simp [repeated])
    | cons c cs => exact hne rfl

/-- A name that is written goes on only in the same name, written again. -/
theorem Rewritten.takeWhile_repeated (htoken : IsName token)
    (hwrites : ∀ old new, writes old new → new = token) (h : Rewritten writes before s t)
    (hs : headIs continuesName s = false) : ∃ n, t.takeWhile continuesName = repeated token n := by
  induction h with
  | nil => exact ⟨0, rfl⟩
  | copy _ _ => exact ⟨0, List.takeWhile_cons_of_neg (by simpa [headIs] using hs)⟩
  | write _ hafter hnew _ ih =>
    obtain rfl := hwrites _ _ hnew
    obtain ⟨n, hn⟩ := ih hafter
    exact ⟨n + 1, by rw [List.takeWhile_append_of_pos htoken.2, hn]; rfl⟩

/-- A rewriting that writes one name leaves the text, or the text has that name among its words, once
    or more often in a row. -/
theorem Rewritten.eq_or_repeated (htoken : IsName token)
    (hwrites : ∀ old new, writes old new → new = token) (h : Rewritten writes before s t) :
    t = s ∨ ∃ n, repeated token (n + 1) ∈ wordsFrom (headIs continuesName before) t := by
  induction h with
  | nil => exact .inl rfl
  | copy _ ih =>
    rcases ih with rfl | ⟨n, hn⟩
    · exact .inl rfl
    · exact .inr ⟨n, mem_wordsFrom_tail _ hn⟩
  | @write before old new s t hfree hafter hnew hrest _ =>
    obtain rfl := hwrites _ _ hnew
    obtain ⟨n, hn⟩ := hrest.takeWhile_repeated htoken hwrites hafter
    refine .inr ⟨n, ?_⟩
    rw [headIs_continuesName hfree]
    change repeated new (n + 1) ∈ words (new ++ t)
    rw [words_name_append htoken, hn]
    exact List.mem_cons_self

theorem renameArgument_eq_or_repeated (htoken : IsName token) (argument code : Text) :
    renameArgument argument token code = code ∨
      ∃ n, repeated token (n + 1) ∈ words (renameArgument argument token code) := by
  by_cases hsame : ∀ run, .plain run ∈ segments code →
      substitute argument (fun _ _ => token) run = run
  · exact .inl ((mapPlain_congr (g := id) hsame).trans (mapPlain_id code))
  · push Not at hsame
    obtain ⟨run, hrun, hchanged⟩ := hsame
    have hrewritten := rewritten_substituteFrom argument (fun _ _ => token) [] run
    have hwrites : ∀ old new : Text, (old = argument ∧ ∃ _ _ : Text, new = token) → new = token :=
      fun _ _ h => h.2.elim fun _ h => h.elim fun _ h => h
    obtain ⟨n, hn⟩ := (hrewritten.eq_or_repeated htoken hwrites).resolve_left hchanged
    refine .inr ⟨n, ?_⟩
    rw [renameArgument, words_mapPlain]
    exact List.mem_flatMap.mpr ⟨_, hrun, hn⟩

end Argument

section Padding

variable {name s : Text}

/-- What may be taken off a handler: blanks and braces. -/
def isPadding (c : CodePoint) : Bool := c.is isBlank || c == .char '\x7b' || c == .char '\x7d'

def Padded (name s : Text) : Prop :=
  ∃ front back, s = front ++ (name ++ back) ∧ ∀ c ∈ front ++ back, isPadding c = true

theorem Padded.wrap {front back : Text} (hfront : ∀ c ∈ front, isPadding c = true)
    (hback : ∀ c ∈ back, isPadding c = true) (h : Padded name s) :
    Padded name (front ++ (s ++ back)) := by
  obtain ⟨near, far, rfl, hpadding⟩ := h
  rw [List.forall_mem_append] at hpadding
  refine ⟨front ++ near, far ++ back, by simp, ?_⟩
  simp only [List.forall_mem_append]
  exact ⟨⟨hfront, hpadding.1⟩, hpadding.2, hback⟩

theorem Padded.of_trim (h : Padded name (trim s)) : Padded name s := by
  obtain ⟨front, back, hs, hfront, hback⟩ := exists_trim s
  have hblank : ∀ t, isBlankText t = true → ∀ c ∈ t, isPadding c = true := by
    intro t ht c hc
    have hc := List.all_eq_true.mp ht c hc
    rw [isPadding, hc]
    rfl
  rw [hs]
  exact h.wrap (hblank front hfront) (hblank back hback)

theorem Padded.of_unwrapBlock (h : Padded name (unwrapBlock s)) : Padded name s := by
  rw [unwrapBlock] at h
  split at h
  next rest hs =>
    split at h
    next hlast =>
      obtain ⟨inner, hrest⟩ := List.getLast?_eq_some_iff.mp hlast
      rw [hrest, List.dropLast_concat] at h
      have hbraced : Padded name ([.char '\x7b'] ++ (inner ++ [.char '\x7d'])) :=
        h.of_trim.wrap (List.forall_mem_singleton.mpr rfl) (List.forall_mem_singleton.mpr rfl)
      refine Padded.of_trim ?_
      rwa [hs, hrest]
    next => exact h
  next => exact h

theorem continuesName_of_isPadding {c : CodePoint} (h : isPadding c = true) :
    continuesName c = false := by
  rw [isPadding, Bool.or_eq_true, Bool.or_eq_true, beq_iff_eq, beq_iff_eq] at h
  rcases h with (h | rfl) | rfl
  · exact continuesName_of_isBlank h
  · rfl
  · rfl

theorem Padded.words_eq (hname : IsName name) (h : Padded name s) : words s = [name] := by
  obtain ⟨front, back, rfl, hpadding⟩ := h
  rw [List.forall_mem_append] at hpadding
  have hhead : ∀ t : Text, (∀ c ∈ t, isPadding c = true) → headIs continuesName t = false := by
    intro t ht
    cases t with
    | nil => rfl
    | cons c cs => exact continuesName_of_isPadding (ht c List.mem_cons_self)
  have hnone : ∀ t : Text, (∀ c ∈ t, isPadding c = true) → words t = [] := by
    intro t ht
    induction t with
    | nil => rfl
    | cons c cs ih =>
      rw [List.forall_mem_cons] at ht
      rw [words, wordsFrom_other false (continuesName_of_isPadding ht.1), ih ht.2]
  have hfront : headIs continuesName front.reverse = false :=
    hhead _ fun c hc => hpadding.1 c (List.mem_reverse.mp hc)
  rw [words_append (.inl hfront), words_append (.inr (hhead back hpadding.2)), words_name hname,
    hnone front hpadding.1, hnone back hpadding.2]
  rfl

theorem Padded.notMem (hname : IsName name) {c : CodePoint} (hc : continuesName c = false)
    (hpad : isPadding c = false) (h : Padded name s) : c ∉ s := by
  obtain ⟨front, back, rfl, hpadding⟩ := h
  have hnot : ∀ d, isPadding d = true ∨ continuesName d = true → d ≠ c := by
    rintro d hd rfl
    simp [hc, hpad] at hd
  intro hmem
  rw [List.mem_append, List.mem_append] at hmem
  rcases hmem with hmem | hmem | hmem
  · exact hnot c (.inl (hpadding c (List.mem_append_left _ hmem))) rfl
  · exact hnot c (.inr (hname.2 c hmem)) rfl
  · exact hnot c (.inl (hpadding c (List.mem_append_right _ hmem))) rfl

end Padding

/-- A name that a handler comes down to is what the handler has for words, unless it is the new name of
    the parameter, once or more often in a row. -/
theorem padded_of_renamed {name token argument code : Text} (htoken : IsName token)
    (hname : IsName name) (hne : ∀ n, name ≠ repeated token n)
    (h : trim (unwrapBlock (renameArgument argument token code)) = name) : Padded name code := by
  have hself : Padded name name := ⟨[], [], by simp, by simp⟩
  have hpadded : Padded name (renameArgument argument token code) := by
    refine Padded.of_unwrapBlock (Padded.of_trim ?_)
    rwa [h]
  rcases renameArgument_eq_or_repeated htoken argument code with hsame | ⟨n, hn⟩
  · rwa [hsame] at hpadded
  · rw [hpadded.words_eq hname] at hn
    exact absurd (List.mem_singleton.mp hn).symm (hne (n + 1))

end ElementCompiler.Snippet
