import ElementCompiler.Proofs.Snippet.Settled

set_option autoImplicit false

/-!
The passes for refs. A ref loses `.current` wherever its current value is read, in literals too, and
is then written as its field where it is used. The first pass changes words of joined characters
only, so that literals end where they ended and every run is cut by itself.
-/

namespace ElementCompiler.Snippet

open Text

section Field

variable {name word field : Text} {names : List Text}

theorem headIs_substituteFrom (hname : headIs continuesName name = true)
    (written : Text → Text → Text) (before : Text) {s : Text} (h : headIs continuesName s = false) :
    headIs continuesName (substituteFrom name written 0 before s) = false := by
  cases s with
  | nil => rw [substituteFrom_nil _ hname]; rfl
  | cons c cs => rw [substituteFrom_of_none _ (occursAt?_other hname h)]; exact h

/-- What is written for a ref, unless it is declared. -/
def writtenUnlessDeclared (written name before after : Text) : Text :=
  if isBindingPosition before after then name else written

/-- The pass for a ref settles it. -/
theorem moved_substitute (hname : IsName name) (hword : IsName word) (hnot : word ∉ name :: names)
    (hfield : IsName field) (hdeclares : declares name.reverse = true → declares field.reverse = true)
    (before s : Text) (hcut : Apart before s) :
    Moved [name] names before s
      (substituteFrom name (writtenUnlessDeclared (receptor word ++ field) name) 0 before s) := by
  induction s using nameInduction generalizing before with
  | nil => rw [substituteFrom_nil _ hname.head]; exact .nil
  | other c cs hc ih =>
    rw [substituteFrom_of_none _ (occursAt?_other hname.head hc)]
    exact .other hc (ih _ (Or.inl hc))
  | name first rest hfirst hrest ih =>
    have hpoint := Settled.headIs_isJoined (hfirst.start hcut)
    have hhead := headIs_substituteFrom hname.head
      (writtenUnlessDeclared (receptor word ++ field) name) (first.reverse ++ before) hrest
    have hmoved := ih (first.reverse ++ before) (Or.inr hrest)
    by_cases hhit : headIs isJoined before = false ∧ name = first
    · obtain ⟨hbefore, rfl⟩ := hhit
      rw [substituteFrom_sameName _ hname hrest hbefore, writtenUnlessDeclared]
      split
      next hbinding =>
        have hfree : takesReceptor [name] before name rest = false := by simp [takesReceptor, hbinding]
        exact .name hname hrest hhead hfree hmoved
      next =>
        rw [List.append_assoc]
        exact .led hname hrest hhead hword hnot hfield hdeclares hmoved
    · rw [not_and_or, Bool.not_eq_false] at hhit
      have hfree : takesReceptor [name] before first rest = false := by
        rw [hpoint] at hhit
        rcases hhit with hbefore | hother
        · simp [takesReceptor, hbefore]
        · have hother : first ≠ name := fun heq => hother heq.symm
          simp [takesReceptor, hother]
      rw [substituteFrom_otherName _ hname hfirst hrest hhit]
      exact .name hfirst hrest hhead hfree hmoved

end Field

section Constant

variable {pat new : Text}

theorem occursAt?_behind (pat : Text) {before before' : Text}
    (h : headIs isJoined before = headIs isJoined before') (s : Text) :
    occursAt? pat before s = occursAt? pat before' s := by
  rw [occursAt?, occursAt?, h]

/-- Of what stands behind a text only the nearest character counts, and only whether it is joined. -/
theorem substituteFrom_behind (skip : Nat) {before before' : Text}
    (h : headIs isJoined before = headIs isJoined before') (s : Text) :
    substituteFrom pat (fun _ _ => new) skip before s =
      substituteFrom pat (fun _ _ => new) skip before' s := by
  induction s generalizing skip before before' with
  | nil =>
    cases skip with
    | zero => rw [substituteFrom, substituteFrom, occursAt?_behind pat h]
    | succ _ => rfl
  | cons c cs ih =>
    have hnear : ∀ n, substituteFrom pat (fun _ _ => new) n (c :: before) cs =
        substituteFrom pat (fun _ _ => new) n (c :: before') cs := fun n => ih n rfl
    cases skip with
    | zero => rw [substituteFrom, substituteFrom, occursAt?_behind pat h, hnear, hnear]
    | succ n => rw [substituteFrom, substituteFrom, hnear]

theorem substituteFrom_afresh {c : CodePoint} (hc : isJoined c = false) (before s : Text) :
    substituteFrom pat (fun _ _ => new) 0 (c :: before) s =
      substituteFrom pat (fun _ _ => new) 0 [] s := by
  have hhead : headIs isJoined (c :: before) = headIs isJoined [] := hc
  exact substituteFrom_behind 0 hhead s

theorem of_occursAt? {before s after : Text} (h : occursAt? pat before s = some after) :
    s = pat ++ after ∧ headIs continuesName after = false := by
  rw [occursAt?] at h
  split at h
  next => cases h
  next =>
    split at h
    next => cases h
    next hafter =>
      split at h
      next => cases h
      next hhead =>
        obtain rfl := Option.some.inj h
        exact ⟨eq_append_of_after? hafter, by simpa using hhead⟩

theorem free_of_occursAt? {before s after : Text} (h : occursAt? pat before s = some after) :
    headIs isJoined before = false := by
  refine Bool.eq_false_iff.mpr fun hjoined => ?_
  rw [occursAt?_joined pat hjoined] at h
  cases h

theorem substituteFrom_some (hpat : pat ≠ []) (written : Text → Text → Text)
    {before after : Text} (h : occursAt? pat before (pat ++ after) = some after) :
    substituteFrom pat written 0 before (pat ++ after) =
      written before after ++ substituteFrom pat written 0 (pat.reverse ++ before) after := by
  obtain ⟨c, cs, rfl⟩ := List.exists_cons_of_ne_nil hpat
  have hskip := substituteFrom_skip written (c :: cs) cs (c :: before) after
  rw [List.cons_append] at h ⊢
  rw [substituteFrom, h]
  simpa using hskip

end Constant

section Current

variable {name last : Text} {names : List Text}

/-- The pass that cuts references through a name down to it. -/
theorem moved_cut (hname : IsName name) (hlast : IsName last)
    (hdeclares : declares last.reverse = false) (before s : Text) (hcut : Apart before s) :
    Moved [] names before s
      (substituteFrom (name ++ .char '.' :: last) (fun _ _ => name) 0 before s) := by
  have hpat : headIs continuesName (name ++ .char '.' :: last) = true := by
    obtain ⟨c, cs, rfl⟩ := List.exists_cons_of_ne_nil hname.1
    exact hname.head
  -- an occurrence takes two names and the point between them, so the length of the rest is what falls
  cases hoccurs : occursAt? (name ++ .char '.' :: last) before s with
  | some after =>
    obtain ⟨rfl, hafter⟩ := of_occursAt? hoccurs
    have hmoved := moved_cut hname hlast hdeclares
      ((name ++ .char '.' :: last).reverse ++ before) after (Or.inr hafter)
    have hsplit : name ++ .char '.' :: last ++ after = name ++ .char '.' :: (last ++ after) := by simp
    rw [substituteFrom_some (by simp) _ hoccurs, hsplit]
    refine .cut hname hlast hdeclares hafter (headIs_substituteFrom hpat _ _ hafter) rfl ?_
    simpa using hmoved
  | none =>
    cases s with
    | nil => rw [substituteFrom_nil _ hpat]; exact .nil
    | cons c cs =>
      by_cases hc : continuesName c = true
      · have hfirst := isName_takeWhile hc cs
        have hrest := headIs_dropWhile continuesName cs
        have hlen := dropWhile_length_le (p := continuesName) cs
        rw [cons_eq_name_append c cs] at hoccurs ⊢
        rw [substituteFrom_passed _ hfirst hoccurs]
        exact .name hfirst hrest (headIs_substituteFrom hpat _ _ hrest) rfl
          (moved_cut hname hlast hdeclares _ _ (Or.inr hrest))
      · have hc : continuesName c = false := by simpa using hc
        rw [substituteFrom_of_none _ hoccurs]
        exact .other hc (moved_cut hname hlast hdeclares _ _ (Or.inl hc))
termination_by s.length
decreasing_by
  all_goals subst_vars
  all_goals simp only [List.length_append, List.length_cons]
  all_goals omega

end Current

section Literal

variable {quote : CodePoint}

theorem isJoined_eq_false_of_isQuote {c : CodePoint} (h : isQuote c = true) : isJoined c = false := by
  by_contra hjoined
  have hnot := isNotQuote_of_isJoined (by simpa using hjoined)
  rw [isNotQuote, h] at hnot
  cases hnot

theorem continuesName_eq_false_of_isQuote {c : CodePoint} (h : isQuote c = true) :
    continuesName c = false :=
  (Bool.or_eq_false_iff.mp (isJoined_eq_false_of_isQuote h)).1

theorem literalRest_quote (quote : CodePoint) (cs : Text) :
    (literalRest quote (quote :: cs)).2 = cs := by
  rw [literalRest.eq_def]
  simp

theorem literalRest_newline (hquote : isQuote quote = true) (cs : Text) :
    (literalRest quote (.char '\n' :: cs)).2 = cs := by
  have hne : CodePoint.char '\n' ≠ quote := by rintro rfl; exact absurd hquote (by decide)
  have hslash : CodePoint.char '\n' ≠ .char '\\' := by decide
  rw [literalRest.eq_def]
  simp [hne, hslash]

theorem literalRest_escape (hquote : isQuote quote = true) (c : CodePoint) (cs : Text) :
    (literalRest quote (.char '\\' :: c :: cs)).2 = (literalRest quote cs).2 := by
  have hne : CodePoint.char '\\' ≠ quote := by rintro rfl; exact absurd hquote (by decide)
  rw [literalRest.eq_def]
  simp [hne]

theorem literalRest_inside {c : CodePoint} (hne : c ≠ quote) (hslash : c ≠ .char '\\')
    (hnewline : c ≠ .char '\n') (cs : Text) :
    (literalRest quote (c :: cs)).2 = (literalRest quote cs).2 := by
  rw [literalRest.eq_def]
  simp [hne, hslash, hnewline]

theorem literalRest_joined (hquote : isQuote quote = true) {run : Text}
    (hrun : ∀ c ∈ run, isJoined c = true) (rest : Text) :
    (literalRest quote (run ++ rest)).2 = (literalRest quote rest).2 := by
  induction run with
  | nil => rfl
  | cons c cs ih =>
    rw [List.forall_mem_cons] at hrun
    have hne : c ≠ quote := by
      rintro rfl
      simp [isJoined_eq_false_of_isQuote hquote] at hrun
    have hslash : c ≠ .char '\\' := by rintro rfl; exact absurd hrun.1 (by decide)
    have hnewline : c ≠ .char '\n' := by rintro rfl; exact absurd hrun.1 (by decide)
    rw [List.cons_append, literalRest_inside hne hslash hnewline, ih hrun.2]

/-- A backslash takes a part of the run along at most. -/
theorem literalRest_escaped (hquote : isQuote quote = true) {run : Text} (hne : run ≠ [])
    (hrun : ∀ c ∈ run, isJoined c = true) (rest : Text) :
    (literalRest quote (.char '\\' :: (run ++ rest))).2 = (literalRest quote rest).2 := by
  obtain ⟨c, cs, rfl⟩ := List.exists_cons_of_ne_nil hne
  rw [List.cons_append, literalRest_escape hquote,
    literalRest_joined hquote fun d hd => hrun d (List.mem_cons_of_mem c hd)]

theorem literalRest_backslash (hquote : isQuote quote = true) :
    (literalRest quote [.char '\\']).2 = [] := by
  have hne : CodePoint.char '\\' ≠ quote := by rintro rfl; exact absurd hquote (by decide)
  rw [literalRest.eq_def]
  simp [hne]

/-- A literal that does not end the text ends at a quote or a line break. -/
theorem literalRest_end {quote : CodePoint} (hquote : isQuote quote = true) (cs : Text) :
    (literalRest quote cs).2 = [] ∨
      ∃ front c, (literalRest quote cs).1 = front ++ [c] ∧ isJoined c = false := by
  fun_induction literalRest quote cs with
  | case1 => exact .inl rfl
  | case2 cs => exact .inr ⟨[], quote, rfl, isJoined_eq_false_of_isQuote hquote⟩
  | case3 hne => exact .inl rfl
  | case4 d ds hne ih =>
    refine ih.imp_right ?_
    rintro ⟨front, e, hfront, he⟩
    exact ⟨.char '\\' :: d :: front, e, by rw [hfront]; rfl, he⟩
  | case5 cs hne hslash => exact .inr ⟨[], .char '\n', rfl, by rfl⟩
  | case6 c cs hne hslash hline ih =>
    refine ih.imp_right ?_
    rintro ⟨front, e, hfront, he⟩
    exact ⟨c :: front, e, by rw [hfront]; rfl, he⟩

end Literal

section Segments

variable {pat new : Text}

def Segment.onText (f : Text → Text) : Segment → Segment
  | .literal text => .literal (f text)
  | .plain text => .plain (f text)

/-- What a pass over a whole snippet has to read and write so as to move no border of its segments. -/
structure JoinsWords (pat new : Text) : Prop where
  head : headIs continuesName pat = true
  pat : ∀ c ∈ pat, isJoined c = true
  new : new ≠ [] ∧ ∀ c ∈ new, isJoined c = true

namespace JoinsWords

theorem ne_nil (h : JoinsWords pat new) : pat ≠ [] := by
  have hhead := h.head
  rintro rfl
  cases hhead

/-- A literal ends before the same text. -/
theorem literalRest_substitute (h : JoinsWords pat new) {quote : CodePoint}
    (hquote : isQuote quote = true) (before s : Text) :
    (literalRest quote (substituteFrom pat (fun _ _ => new) 0 before s)).2 =
      substituteFrom pat (fun _ _ => new) 0 [] (literalRest quote s).2 := by
  have hpos : 0 < pat.length := List.length_pos_iff.mpr h.ne_nil
  cases hoccurs : occursAt? pat before s with
  | some after =>
    obtain ⟨rfl, _⟩ := of_occursAt? hoccurs
    rw [substituteFrom_some h.ne_nil _ hoccurs, literalRest_joined hquote h.new.2,
      literalRest_joined hquote h.pat]
    exact literalRest_substitute h hquote _ after
  | none =>
    cases s with
    | nil => rw [substituteFrom_nil _ h.head, literalRest, substituteFrom_nil _ h.head]
    | cons c cs =>
      rw [substituteFrom_of_none _ hoccurs]
      by_cases hclose : c = quote
      · subst hclose
        rw [literalRest_quote, literalRest_quote]
        exact substituteFrom_afresh (isJoined_eq_false_of_isQuote hquote) before cs
      by_cases hnewline : c = .char '\n'
      · subst hnewline
        rw [literalRest_newline hquote, literalRest_newline hquote]
        exact substituteFrom_afresh (by decide) before cs
      by_cases hslash : c = .char '\\'
      · subst hslash
        -- the character that is taken along may begin an occurrence
        cases hnext : occursAt? pat (.char '\\' :: before) cs with
        | some after =>
          obtain ⟨rfl, _⟩ := of_occursAt? hnext
          rw [substituteFrom_some h.ne_nil _ hnext, literalRest_escaped hquote h.new.1 h.new.2,
            literalRest_escaped hquote h.ne_nil h.pat]
          exact literalRest_substitute h hquote _ after
        | none =>
          cases cs with
          | nil =>
            rw [substituteFrom_nil _ h.head, literalRest_backslash hquote,
              substituteFrom_nil _ h.head]
          | cons d ds =>
            rw [substituteFrom_of_none _ hnext, literalRest_escape hquote, literalRest_escape hquote]
            exact literalRest_substitute h hquote _ ds
      · rw [literalRest_inside hclose hslash hnewline, literalRest_inside hclose hslash hnewline]
        exact literalRest_substitute h hquote _ cs
termination_by s.length
decreasing_by
  all_goals subst_vars
  all_goals simp only [List.length_append, List.length_cons]
  all_goals omega

/-- Behind a character that joins no words a pass begins afresh. -/
theorem substituteFrom_break (h : JoinsWords pat new) {c : CodePoint} (hc : isJoined c = false)
    (before cs : Text) : substituteFrom pat (fun _ _ => new) 0 before (c :: cs) =
      c :: substituteFrom pat (fun _ _ => new) 0 [] cs := by
  rw [substituteFrom_of_none _ (occursAt?_other h.head (Bool.or_eq_false_iff.mp hc).1),
    substituteFrom_afresh hc]

/-- Nothing occurs across a character that joins no words. -/
theorem occursAt?_append (h : JoinsWords pat new) {rest : Text}
    (hrest : ∀ c cs, rest = c :: cs → isJoined c = false) (before run : Text) :
    occursAt? pat before (run ++ rest) = (occursAt? pat before run).map (· ++ rest) := by
  have hafter : ∀ p : Text, (∀ c ∈ p, isJoined c = true) → ∀ run : Text,
      after? p (run ++ rest) = (after? p run).map (· ++ rest) := by
    intro p hp
    induction p with
    | nil => intro run; cases run <;> cases rest <;> rfl
    | cons p ps ih =>
      rw [List.forall_mem_cons] at hp
      intro run
      cases run with
      | nil =>
        cases rest with
        | nil => rfl
        | cons d ds =>
          have hne : p ≠ d := by
            rintro rfl
            simp [hrest p ds rfl] at hp
          simp [after?, hne]
      | cons c cs => by_cases hpc : p = c <;> simp [after?, hpc, ih hp.2]
  have hhead : ∀ t : Text, headIs continuesName (t ++ rest) = headIs continuesName t := by
    intro t
    cases t with
    | cons _ _ => rfl
    | nil =>
      cases rest with
      | nil => rfl
      | cons d ds => exact (Bool.or_eq_false_iff.mp (hrest d ds rfl)).1
  rw [occursAt?, occursAt?, hafter pat h.pat]
  cases after? pat run with
  | none => simp
  | some t =>
    by_cases hbefore : headIs isJoined before = true
    · simp [hbefore]
    · by_cases ht : headIs continuesName t = true <;> simp [hbefore, ht, hhead]

theorem substituteFrom_append (h : JoinsWords pat new) {rest : Text}
    (hrest : ∀ c cs, rest = c :: cs → isJoined c = false) (before run : Text) :
    substituteFrom pat (fun _ _ => new) 0 before (run ++ rest) =
      substituteFrom pat (fun _ _ => new) 0 before run ++
        substituteFrom pat (fun _ _ => new) 0 [] rest := by
  have hpos : 0 < pat.length := List.length_pos_iff.mpr h.ne_nil
  have hsplit := h.occursAt?_append hrest before run
  cases hoccurs : occursAt? pat before run with
  | some after =>
    obtain ⟨rfl, _⟩ := of_occursAt? hoccurs
    rw [hoccurs, Option.map_some, List.append_assoc] at hsplit
    rw [List.append_assoc, substituteFrom_some h.ne_nil _ hsplit, substituteFrom_some h.ne_nil _ hoccurs,
      substituteFrom_append h hrest, List.append_assoc]
  | none =>
    rw [hoccurs, Option.map_none] at hsplit
    cases run with
    | nil =>
      rw [substituteFrom_nil _ h.head, List.nil_append, List.nil_append]
      cases rest with
      | nil => rw [substituteFrom_nil _ h.head, substituteFrom_nil _ h.head]
      | cons q rest =>
        have hq := hrest q rest rfl
        rw [h.substituteFrom_break hq, h.substituteFrom_break hq]
    | cons c cs =>
      rw [List.cons_append] at hsplit ⊢
      rw [substituteFrom_of_none _ hsplit, substituteFrom_of_none _ hoccurs,
        substituteFrom_append h hrest, List.cons_append]
termination_by run.length
decreasing_by
  all_goals subst_vars
  all_goals simp only [List.length_append, List.length_cons]
  all_goals omega

theorem sameAhead_substituteFrom (h : JoinsWords pat new) (before s : Text) :
    SameAhead (substituteFrom pat (fun _ _ => new) 0 before s) s := by
  have hpos : 0 < pat.length := List.length_pos_iff.mpr h.ne_nil
  cases hoccurs : occursAt? pat before s with
  | some after =>
    obtain ⟨rfl, _⟩ := of_occursAt? hoccurs
    rw [substituteFrom_some h.ne_nil _ hoccurs]
    exact .word h.new.1 h.ne_nil h.new.2 h.pat (sameAhead_substituteFrom h _ after)
  | none =>
    cases s with
    | nil => rw [substituteFrom_nil _ h.head]; exact .nil
    | cons c cs =>
      rw [substituteFrom_of_none _ hoccurs]
      exact .keep c (sameAhead_substituteFrom h _ cs)
termination_by s.length
decreasing_by
  all_goals subst_vars
  all_goals simp only [List.length_append, List.length_cons]
  all_goals omega

theorem substitute_append (h : JoinsWords pat new) {c : CodePoint} (hc : isJoined c = false) (s t : Text) :
    substitute pat (fun _ _ => new) (s ++ c :: t) =
      substitute pat (fun _ _ => new) s ++ c :: substitute pat (fun _ _ => new) t := by
  have hrest : ∀ d ds, c :: t = d :: ds → isJoined d = false := fun d ds heq => (List.cons.inj heq).1 ▸ hc
  have happend := h.substituteFrom_append hrest [] s
  rwa [h.substituteFrom_break hc] at happend

theorem substitute_literal (h : JoinsWords pat new) {quote : CodePoint} (hquote : isQuote quote = true)
    (cs : Text) : substitute pat (fun _ _ => new) cs =
      substitute pat (fun _ _ => new) (literalRest quote cs).1 ++
        substitute pat (fun _ _ => new) (literalRest quote cs).2 := by
  have hempty : substitute pat (fun _ _ => new) [] = [] := substituteFrom_nil _ h.head []
  have hcs := literalRest_append quote cs
  rcases literalRest_end hquote cs with hrest | ⟨front, last, hfirst, hlast⟩
  · rw [hrest, List.append_nil] at hcs
    rw [hrest, hempty, List.append_nil, hcs]
  · conv_lhs => rw [← hcs, hfirst, List.append_assoc, List.singleton_append, h.substitute_append hlast]
    rw [hfirst, h.substitute_append hlast, hempty, List.append_assoc, List.singleton_append]

/-- A pass over a whole snippet goes through every segment by itself. -/
theorem segments_substitute (h : JoinsWords pat new) (code : Text) :
    segments (substitute pat (fun _ _ => new) code) =
      (segments code).map (Segment.onText (substitute pat fun _ _ => new)) := by
  have hempty : substitute pat (fun _ _ => new) [] = [] := substituteFrom_nil _ h.head []
  fun_induction segments code with
  | case1 => rw [hempty, segments, List.map_nil]
  | case2 c cs hq ih =>
    have hbreak : ∀ s, substitute pat (fun _ _ => new) (c :: s) = c :: substitute pat (fun _ _ => new) s :=
      h.substituteFrom_break (isJoined_eq_false_of_isQuote hq) []
    have hrest : (literalRest c (substitute pat (fun _ _ => new) cs)).2 =
        substitute pat (fun _ _ => new) (literalRest c cs).2 := h.literalRest_substitute hq [] cs
    -- the literal ends where it ended, so what is before its end is what the pass makes of it
    have hfirst : (literalRest c (substitute pat (fun _ _ => new) cs)).1 =
        substitute pat (fun _ _ => new) (literalRest c cs).1 := by
      have happend := literalRest_append c (substitute pat (fun _ _ => new) cs)
      rw [hrest] at happend
      exact List.append_cancel_right (happend.trans (h.substitute_literal hq cs))
    rw [hbreak, segments, if_pos hq, hrest, hfirst, ih, List.map_cons, Segment.onText, hbreak]
  | case3 c cs hq ih =>
    have hfirst : ∀ d ∈ c :: cs.takeWhile isNotQuote, isNotQuote d = true :=
      List.forall_mem_cons.mpr ⟨by simp [isNotQuote, hq], fun d hd => List.mem_takeWhile_imp hd⟩
    have hsame := h.sameAhead_substituteFrom [] (c :: cs.takeWhile isNotQuote)
    have hne : substituteFrom pat (fun _ _ => new) 0 [] (c :: cs.takeWhile isNotQuote) ≠ [] := by
      intro hnone
      rw [hnone] at hsame
      exact absurd hsame.eq_nil (by simp)
    have hrest : ∀ d ds, substituteFrom pat (fun _ _ => new) 0 [] (cs.dropWhile isNotQuote) = d :: ds →
        isQuote d = true := by
      intro d ds hd
      cases hcs : cs.dropWhile isNotQuote with
      | nil => rw [hcs, substituteFrom_nil _ h.head] at hd; cases hd
      | cons q rest =>
        have hquote := isQuote_of_dropWhile hcs
        rw [hcs, h.substituteFrom_break (isJoined_eq_false_of_isQuote hquote)] at hd
        exact (List.cons.inj hd).1 ▸ hquote
    have hsplit : c :: cs = (c :: cs.takeWhile isNotQuote) ++ cs.dropWhile isNotQuote := by
      rw [List.cons_append, List.takeWhile_append_dropWhile]
    have happend : substituteFrom pat (fun _ _ => new) 0 [] (c :: cs) = _ := hsplit ▸ h.substituteFrom_append
      (fun _ _ heq => isJoined_eq_false_of_isQuote (isQuote_of_dropWhile heq)) []
      (c :: cs.takeWhile isNotQuote)
    rw [substitute, happend, segments_run_append hne (hsame.isNotQuote hfirst) hrest, List.map_cons, ← ih]
    rfl

/-- Each run of the snippet after the pass is a run of the snippet before it after the pass. -/
theorem mem_segments_substitute (h : JoinsWords pat new) {code run : Text}
    (hrun : .plain run ∈ segments (substitute pat (fun _ _ => new) code)) :
    ∃ before, .plain before ∈ segments code ∧ run = substitute pat (fun _ _ => new) before := by
  rw [h.segments_substitute, List.mem_map] at hrun
  obtain ⟨s, hs, hrun⟩ := hrun
  cases s with
  | literal text => cases hrun
  | plain text => exact ⟨text, hs, (Segment.plain.inj hrun).symm⟩

end JoinsWords

end Segments

end ElementCompiler.Snippet
