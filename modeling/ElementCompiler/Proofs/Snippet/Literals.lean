import ElementCompiler.Proofs.Snippet.Segments
import ElementCompiler.Proofs.Snippet.Signature
import ElementCompiler.Proofs.Text.Indent
import ElementCompiler.Proofs.Text.Trim
import ElementCompiler.Snippet.Block

set_option autoImplicit false

/-!
The string literals of a snippet. A pass over the plain runs leaves them as they are; so do trimming
and unwrapping when every literal is closed, and indentation when every literal stands on one line.
-/

namespace ElementCompiler.Snippet

open Text

/-- The string literals of a snippet, in their order. -/
def literals (code : Text) : List Text := ((segments code).filter Segment.isLiteral).map Segment.text

section Literals

variable {c : CodePoint} {s run rest : Text}

@[simp] theorem literals_nil : literals [] = [] := by
  rw [literals, segments]
  rfl

theorem literals_quote (hc : isQuote c = true) (cs : Text) :
    literals (c :: cs) = (c :: (literalRest c cs).1) :: literals (literalRest c cs).2 := by
  rw [literals, segments, if_pos hc]
  rfl

theorem literals_dropWhile (s : Text) : literals (s.dropWhile isNotQuote) = literals s := by
  cases s with
  | nil => rfl
  | cons c cs =>
    cases hc : isNotQuote c with
    | false => rw [List.dropWhile_cons_of_neg (by simp [hc])]
    | true =>
      have hplain : literals (c :: cs) = literals (cs.dropWhile isNotQuote) := by
        rw [literals, segments, if_neg (by simp [isQuote_eq_false hc])]
        rfl
      rw [List.dropWhile_cons_of_pos hc, hplain]

theorem literals_run (hrun : ∀ c ∈ run, isNotQuote c = true) (rest : Text) :
    literals (run ++ rest) = literals rest := by
  rw [← literals_dropWhile (run ++ rest), List.dropWhile_append_of_pos hrun, literals_dropWhile]

theorem literals_other (hc : isNotQuote c = true) (cs : Text) : literals (c :: cs) = literals cs :=
  literals_run (List.forall_mem_singleton.mpr hc) cs

/-- A literal is cut off where it was, unless it ended with the text and does not any more. -/
theorem literals_ended (hc : isQuote c = true) (cs : Text)
    (h : (literalRest c cs).2 = [] → rest = []) :
    literals (c :: ((literalRest c cs).1 ++ rest)) = (c :: (literalRest c cs).1) :: literals rest := by
  rw [literals_quote hc, literalRest_of_ended c cs rest h]

/-- Induction over the literals of a text and the characters between them. -/
theorem literalInduction {motive : Text → Prop} (nil : motive [])
    (other : ∀ c cs, isNotQuote c = true → motive cs → motive (c :: cs))
    (literal : ∀ c cs, isQuote c = true → motive (literalRest c cs).2 → motive (c :: cs)) (s : Text) :
    motive s := by
  match s with
  | [] => exact nil
  | c :: cs =>
    cases hc : isQuote c with
    | false => exact other c cs (by simp [isNotQuote, hc]) (literalInduction nil other literal cs)
    | true =>
      have hlength := literalRest_length c cs
      exact literal c cs hc (literalInduction nil other literal (literalRest c cs).2)
termination_by s.length
decreasing_by
  · exact Nat.lt_succ_self _
  · exact Nat.lt_succ_of_le hlength

/-- A rewriting that puts no quote into a run leaves the literals, also where it leaves nothing of a
    run. -/
theorem literals_mapPlain {f : Text → Text}
    (hf : ∀ run, (∀ c ∈ run, isNotQuote c = true) → ∀ c ∈ f run, isNotQuote c = true) (code : Text) :
    literals (mapPlain f code) = literals code := by
  induction code using segments.induct with
  | case1 => rw [mapPlain_nil]
  | case2 c cs hc ih =>
    have hend : (literalRest c cs).2 = [] → mapPlain f (literalRest c cs).2 = [] := fun h => by
      rw [h, mapPlain_nil]
    rw [mapPlain_literal f hc, List.cons_append, literals_ended hc cs hend, ih, literals_quote hc]
  | case3 c cs hc ih =>
    have hplain : isNotQuote c = true := by simpa [isNotQuote] using hc
    have hrun : ∀ d ∈ c :: cs.takeWhile isNotQuote, isNotQuote d = true :=
      List.forall_mem_cons.mpr ⟨hplain, fun d hd => List.mem_takeWhile_imp hd⟩
    rw [mapPlain_run f (isQuote_eq_false hplain), literals_run (hf _ hrun), ih, literals_dropWhile,
      literals_other hplain]

end Literals

section Closed

/-- Whether a text behind a quote is the rest of a literal, up to the quote that closes it. -/
def closes (quote : CodePoint) : Text → Bool
  | [] => false
  | c :: cs =>
    if c = quote then cs.isEmpty
    else if c = '\\' then
      match cs with
      | [] => false
      | _ :: ds => closes quote ds
    else if c = '\n' then false
    else closes quote cs

def isClosed : Text → Bool
  | [] => false
  | c :: cs => isQuote c && closes c cs

variable {quote : CodePoint} {l s t : Text}

theorem exists_body_of_closes {cs : Text} (h : closes quote cs = true) : ∃ body, cs = body ++ [quote] ∧
    ∀ rest, literalRest quote (body ++ quote :: rest) = (body ++ [quote], rest) := by
  fun_induction closes quote cs with
  | case1 => cases h
  | case2 cs =>
    obtain rfl := List.isEmpty_iff.mp h
    refine ⟨[], rfl, fun rest => ?_⟩
    rw [List.nil_append, literalRest.eq_def]
    simp
  | case3 => cases h
  | case4 hne d ds ih =>
    obtain ⟨body, rfl, hends⟩ := ih h
    refine ⟨.char '\\' :: hne :: body, rfl, fun rest => ?_⟩
    rw [List.cons_append, List.cons_append, literalRest.eq_def]
    simp [ds, hends]
  | case5 => cases h
  | case6 c cs hne hslash hline ih =>
    obtain ⟨body, rfl, hends⟩ := ih h
    refine ⟨c :: body, rfl, fun rest => ?_⟩
    rw [List.cons_append, literalRest.eq_def]
    simp [hne, hslash, hline, hends]

theorem exists_body (h : isClosed l = true) : ∃ quote body, isQuote quote = true ∧
    l = quote :: (body ++ [quote]) ∧
      ∀ rest, literalRest quote (body ++ quote :: rest) = (body ++ [quote], rest) := by
  cases l with
  | nil => cases h
  | cons c cs =>
    obtain ⟨hc, hcloses⟩ := Bool.and_eq_true_iff.mp h
    obtain ⟨body, rfl, hends⟩ := exists_body_of_closes hcloses
    exact ⟨c, body, hc, rfl, hends⟩

theorem literals_closed (h : isClosed l = true) (rest : Text) :
    literals (l ++ rest) = l :: literals rest := by
  obtain ⟨quote, body, hquote, rfl, hends⟩ := exists_body h
  rw [List.cons_append, literals_quote hquote, List.append_assoc, List.singleton_append, hends]

/-- A text that has closed literals only. -/
inductive HasClosed : Text → Prop
  | nil : HasClosed []
  | other {c : CodePoint} {cs : Text} : isNotQuote c = true → HasClosed cs → HasClosed (c :: cs)
  | literal {l rest : Text} : isClosed l = true → HasClosed rest → HasClosed (l ++ rest)

theorem hasClosed_iff : HasClosed s ↔ ∀ l ∈ literals s, isClosed l = true := by
  constructor
  · intro h
    induction h with
    | nil => simp
    | other hc _ ih => rwa [literals_other hc]
    | literal hl _ ih =>
      rw [literals_closed hl]
      exact List.forall_mem_cons.mpr ⟨hl, ih⟩
  · intro h
    induction s using literalInduction with
    | nil => exact .nil
    | other c cs hc ih => exact .other hc (ih (literals_other hc cs ▸ h))
    | literal c cs hc ih =>
      rw [literals_quote hc, List.forall_mem_cons] at h
      rw [← literalRest_append c cs]
      exact .literal h.1 (ih h.2)

theorem HasClosed.congr (h : HasClosed s) (hsame : literals t = literals s) : HasClosed t :=
  hasClosed_iff.mpr (hsame ▸ hasClosed_iff.mp h)

theorem HasClosed.append (h : HasClosed s) (t : Text) : literals (s ++ t) = literals s ++ literals t := by
  induction h with
  | nil => rw [literals_nil, List.nil_append, List.nil_append]
  | other hc _ ih => rw [List.cons_append, literals_other hc, literals_other hc, ih]
  | literal hl _ ih => rw [List.append_assoc, literals_closed hl, literals_closed hl, ih, List.cons_append]

/-- No closed literal reaches into a part without quotes. -/
theorem HasClosed.front (h : HasClosed (s ++ t)) (ht : ∀ c ∈ t, isNotQuote c = true) : HasClosed s := by
  generalize hwhole : s ++ t = whole at h
  induction h generalizing s with
  | nil =>
    rw [(List.append_eq_nil_iff.mp hwhole).1]
    exact .nil
  | @other c cs hc _ ih =>
    cases s with
    | nil => exact .nil
    | cons d ds =>
      obtain ⟨rfl, hrest⟩ := List.cons.inj hwhole
      exact .other hc (ih hrest)
  | @literal l rest hl _ ih =>
    rcases List.append_eq_append_iff.mp hwhole with ⟨ahead, rfl, hback⟩ | ⟨inner, rfl, hrest⟩
    · -- a literal that reached into `t` would end there, with a quote
      obtain ⟨quote, body, hquote, heq, -⟩ := exists_body hl
      rcases List.eq_nil_or_concat ahead with rfl | ⟨front, last, rfl⟩
      · rw [List.append_nil] at hl
        simpa using HasClosed.literal hl .nil
      · have hsame : s ++ front ++ [last] = quote :: body ++ [quote] := by simpa using heq
        obtain rfl := List.singleton_inj.mp (List.append_inj' hsame rfl).2
        have hlast := ht last (hback ▸ by simp)
        rw [isNotQuote, hquote] at hlast
        cases hlast
    · exact .literal hl (ih hrest.symm)

theorem literals_front (h : HasClosed (s ++ t)) (ht : ∀ c ∈ t, isNotQuote c = true) :
    literals (s ++ t) = literals s := by
  have hnone := literals_run ht []
  rw [List.append_nil, literals_nil] at hnone
  rw [(h.front ht).append, hnone, List.append_nil]

theorem literals_trim (h : HasClosed s) : literals (trim s) = literals s := by
  obtain ⟨front, back, hs, hfront, hback⟩ := exists_trim s
  have hrun : literals s = literals (trim s ++ back) :=
    (congrArg literals hs).trans (literals_run (isNotQuote_of_blankText hfront) _)
  rw [hrun, literals_front (h.congr hrun.symm) (isNotQuote_of_blankText hback)]

/-- The braces of a block stand in no closed literal. -/
theorem literals_unwrapBlock (h : HasClosed s) : literals (unwrapBlock s) = literals s := by
  unfold unwrapBlock
  split
  next rest hs =>
    split
    next hlast =>
      obtain ⟨inner, rfl⟩ := List.getLast?_eq_some_iff.mp hlast
      have hopened : literals (inner ++ [.char '\x7d']) = literals s := by
        rw [← literals_trim h, hs, literals_other (by decide)]
      have hclosed := h.congr hopened
      have hbrace : ∀ c ∈ [CodePoint.char '\x7d'], isNotQuote c = true := by decide
      rw [List.dropLast_concat, literals_trim (hclosed.front hbrace), ← literals_front hclosed hbrace, hopened]
    next => rfl
  next => rfl

end Closed

section Lines

variable {s : Text}

/-- Blanks that are put in behind the line breaks of a text do not reach literals of one line. -/
theorem literals_padded {f : Text → Text} {padding : CodePoint → Text → Text} (hf : PadsLines f padding)
    (h : ∀ l ∈ literals s, CodePoint.char '\n' ∉ l) : literals (f s) = literals s := by
  induction s using literalInduction with
  | nil => rw [hf.nil]
  | other c cs hc ih =>
    have hblank : ∀ d ∈ padding c cs, isNotQuote d = true := fun d hd => by
      rw [hf.blank c cs d hd]
      rfl
    rw [literals_other hc] at h ⊢
    rw [hf.cons, literals_other hc, literals_run hblank, ih h]
  | literal c cs hc ih =>
    rw [literals_quote hc, List.forall_mem_cons] at h
    have hsplit : c :: cs = (c :: (literalRest c cs).1) ++ (literalRest c cs).2 :=
      congrArg (c :: ·) (literalRest_append c cs).symm
    have hend : (literalRest c cs).2 = [] → f (literalRest c cs).2 = [] := fun hrest => hrest ▸ hf.nil
    rw [literals_quote hc, ← ih h.2, ← literals_ended hc cs hend]
    conv_lhs => rw [hsplit, hf.append h.1]
    rfl

theorem literals_indentRest (width : Nat) (h : ∀ l ∈ literals s, CodePoint.char '\n' ∉ l) :
    literals (indentRest width s) = literals s := literals_padded (padsLines_indentRest width) h

theorem literals_indentWithin (width : Nat) (h : ∀ l ∈ literals s, CodePoint.char '\n' ∉ l) :
    literals (indentWithin width s) = literals s := literals_padded (padsLines_indentWithin width) h

end Lines

end ElementCompiler.Snippet
