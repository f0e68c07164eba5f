import ElementCompiler.Markup.Attributes
import ElementCompiler.Proofs.Markup.Quoting
import ElementCompiler.Proofs.Snippet.LiteralPasses

set_option autoImplicit false

/-!
Handlers whose double quotes are encoded before their parameter is renamed. Encoding makes code of what
stands in double quotes; where the parameter is no word of it, and no single quote opens a literal in
it, the parameter is renamed as it would be in the code itself.
-/

namespace ElementCompiler.Markup

open Attempt Snippet Text

section Names

variable {name new : Text}

theorem headIs_encodeQuotes {p : CodePoint → Bool} (hp : p '&' = p '"') (s : Text) :
    headIs p (encodeQuotes s) = headIs p s := by
  cases s with
  | nil => rfl
  | cons c cs =>
    by_cases hc : c = '"'
    · rw [hc]
      exact hp
    · rw [encodeQuotes_cons, encodeQuote_of_ne hc]
      rfl

theorem isName_quot : IsName (ofString "quot") := ⟨by decide, by decide⟩

theorem substituteFrom_quoteMark (hname : IsName name) (hne : name ≠ "quot") (before rest : Text) :
    substituteFrom name (fun _ _ => new) 0 before (quoteMark ++ rest) =
      quoteMark ++ substituteFrom name (fun _ _ => new) 0 [] rest := by
  have hsplit : ∀ t, quoteMark ++ t = .char '&' :: (ofString "quot" ++ .char ';' :: t) := fun _ => rfl
  have hsemicolon : ∀ t, headIs continuesName (.char ';' :: t) = false := fun _ => rfl
  rw [hsplit, hsplit, substituteFrom_of_none _ (occursAt?_other hname.head (by rfl)),
    substituteFrom_otherName _ hname isName_quot (hsemicolon _) (.inr hne),
    substituteFrom_of_none _ (occursAt?_other hname.head (by rfl)), substituteFrom_afresh (by rfl)]

/-- Renaming in an encoded text is renaming in the text. -/
theorem substituteFrom_encodeQuotes (hname : IsName name) (hne : name ≠ "quot")
    (hnew : CodePoint.char '"' ∉ new) (before s : Text) :
    substituteFrom name (fun _ _ => new) 0 before (encodeQuotes s) =
      encodeQuotes (substituteFrom name (fun _ _ => new) 0 before s) := by
  induction s using nameInduction generalizing before with
  | nil => rw [encodeQuotes_nil, substituteFrom_nil _ hname.head, encodeQuotes_nil]
  | other c cs hc ih =>
    rw [substituteFrom_of_none _ (occursAt?_other hname.head hc), encodeQuotes_cons, encodeQuotes_cons, ← ih]
    by_cases hquote : c = '"'
    · -- the mark ends in a character that joins nothing, so the pass begins afresh behind it as it does
      -- behind the quote
      subst hquote
      rw [encodeQuote, if_pos rfl, substituteFrom_quoteMark hname hne, substituteFrom_afresh (by rfl)]
    · rw [encodeQuote_of_ne hquote, List.singleton_append,
        substituteFrom_of_none _ (occursAt?_other hname.head hc), List.singleton_append]
  | name first rest hfirst hrest ih =>
    have hplain : encodeQuotes first = first :=
      encodeQuotes_eq_self fun hmem => absurd (hfirst.2 _ hmem) (by decide)
    have hrest' : headIs continuesName (encodeQuotes rest) = false := (headIs_encodeQuotes rfl rest).trans hrest
    rw [encodeQuotes_append, hplain]
    by_cases hhit : headIs isJoined before = false ∧ name = first
    · obtain ⟨hbefore, rfl⟩ := hhit
      rw [substituteFrom_sameName _ hname hrest' hbefore, substituteFrom_sameName _ hname hrest hbefore,
        encodeQuotes_append, encodeQuotes_eq_self hnew, ih]
    · rw [not_and_or, Bool.not_eq_false] at hhit
      rw [substituteFrom_otherName _ hname hfirst hrest' hhit, substituteFrom_otherName _ hname hfirst hrest hhit,
        encodeQuotes_append, hplain, ih]

end Names

section Literals

variable {c : CodePoint} {run : Text}

theorem literalRest_run {quote : CodePoint}
    (hrun : ∀ c ∈ run, c ≠ quote ∧ c ≠ .char '\\' ∧ c ≠ .char '\n') (rest : Text) :
    literalRest quote (run ++ rest) = (run ++ (literalRest quote rest).1, (literalRest quote rest).2) := by
  induction run with
  | nil => rfl
  | cons c cs ih =>
    rw [List.forall_mem_cons] at hrun
    obtain ⟨⟨hquote, hslash, hline⟩, hcs⟩ := hrun
    rw [List.cons_append, literalRest.eq_def]
    simp [hquote, hslash, hline, ih hcs]

/-- A literal in single quotes ends where it ended. -/
theorem literalRest_encodeQuotes (cs : Text) : literalRest '\'' (encodeQuotes cs) =
    (encodeQuotes (literalRest '\'' cs).1, encodeQuotes (literalRest '\'' cs).2) := by
  have hmark : ∀ c ∈ quoteMark, c ≠ '\'' ∧ c ≠ '\\' ∧ c ≠ '\n' := by decide
  have hquot : ∀ c ∈ ofString "quot;", c ≠ '\'' ∧ c ≠ '\\' ∧ c ≠ '\n' := by decide
  generalize hquote : CodePoint.char '\'' = quote
  fun_induction literalRest quote cs with
  | case1 => rfl
  | case2 cs =>
    subst hquote
    rw [encodeQuotes_cons, encodeQuote_of_ne (by decide), List.singleton_append, literalRest.eq_def]
    rfl
  | case3 hne =>
    subst hquote
    rfl
  | case4 d ds hne ih =>
    subst hquote
    by_cases hd : d = '"'
    · have hescaped : ∀ t, encodeQuotes (.char '\\' :: d :: t) =
          .char '\\' :: .char '&' :: (ofString "quot;" ++ encodeQuotes t) := fun t => by
        rw [hd, encodeQuotes_cons, encodeQuotes_cons]
        rfl
      rw [hescaped, hescaped, literalRest.eq_def]
      simp [hne, literalRest_run hquot, ih]
    · have hescaped : ∀ t, encodeQuotes (.char '\\' :: d :: t) = .char '\\' :: d :: encodeQuotes t := fun t => by
        rw [encodeQuotes_cons, encodeQuotes_cons, encodeQuote_of_ne hd]
        rfl
      rw [hescaped, hescaped, literalRest.eq_def]
      simp [hne, ih]
  | case5 cs hne hslash =>
    subst hquote
    rw [encodeQuotes_cons, encodeQuote_of_ne (by decide), List.singleton_append, literalRest.eq_def]
    rfl
  | case6 c cs hne hslash hline ih =>
    subst hquote
    rw [encodeQuotes_cons]
    by_cases hc : c = '"'
    · rw [encodeQuote, if_pos hc, literalRest_run hmark, ih, encodeQuotes_cons, encodeQuote, if_pos hc]
    · rw [encodeQuote_of_ne hc, List.singleton_append, literalRest.eq_def]
      simp [hne, hslash, hline, ih, encodeQuotes_cons, encodeQuote, hc]

end Literals

section Handlers

variable {name new code : Text}

/-- The literals in double quotes have no single quote and do not use the name. -/
def KeepsDoubled (name code : Text) : Prop :=
  ∀ l ∈ literals code, headIs (· == .char '"') l = true → CodePoint.char '\'' ∉ l ∧ uses l name = false

theorem isNotQuote_encodeQuotes {s : Text} (hs : CodePoint.char '\'' ∉ s) :
    ∀ c ∈ encodeQuotes s, isNotQuote c = true := by
  intro c hc
  have hdouble : c ≠ '"' := ne_of_mem_of_not_mem hc (quote_notMem_encodeQuotes s)
  have hsingle : c ≠ '\'' := by
    rw [encodeQuotes_eq, List.mem_flatMap] at hc
    obtain ⟨d, hd, hc⟩ := hc
    unfold encodeQuote at hc
    split at hc
    next => exact (by decide : ∀ c ∈ quoteMark, c ≠ '\'') c hc
    next =>
      obtain rfl := List.mem_singleton.mp hc
      exact ne_of_mem_of_not_mem hd hs
  simp [isNotQuote, isQuote, hdouble, hsingle]

theorem encodeQuotes_ends {c : CodePoint} (hc : isJoined c = false) (s : Text) :
    ∃ front d, encodeQuotes (s ++ [c]) = front ++ [d] ∧ isJoined d = false := by
  rw [encodeQuotes_append, encodeQuotes_cons, encodeQuotes_nil, List.append_nil]
  by_cases hquote : c = '"'
  · refine ⟨encodeQuotes s ++ ofString "&quot", .char ';', ?_, by rfl⟩
    rw [encodeQuote, if_pos hquote, List.append_assoc]
    rfl
  · exact ⟨encodeQuotes s, c, by rw [encodeQuote_of_ne hquote], hc⟩

theorem mapPlain_encodedSingle (f : Text → Text) (cs : Text) : mapPlain f (encodeQuotes (.char '\'' :: cs)) =
    encodeQuotes (.char '\'' :: (literalRest '\'' cs).1) ++ mapPlain f (encodeQuotes (literalRest '\'' cs).2) := by
  rw [encodeQuotes_cons, encodeQuote_of_ne (by decide), List.singleton_append, mapPlain_literal f rfl,
    literalRest_encodeQuotes, encodeQuotes_cons, encodeQuote_of_ne (by decide), List.singleton_append]

/-- A literal in double quotes becomes part of a run; a pass leaves it when it finds nothing in it. -/
theorem mapPlain_encodedDouble (hname : IsName name) (hne : name ≠ "quot") (hjoins : JoinsWords name new)
    {cs : Text} (hsingle : CodePoint.char '\'' ∉ .char '"' :: (literalRest '"' cs).1)
    (hunused : uses (.char '"' :: (literalRest '"' cs).1) name = false) :
    mapPlain (substitute name fun _ _ => new) (encodeQuotes (.char '"' :: cs)) =
      encodeQuotes (.char '"' :: (literalRest '"' cs).1) ++
        mapPlain (substitute name fun _ _ => new) (encodeQuotes (literalRest '"' cs).2) := by
  have hquote : CodePoint.char '"' ∉ new := fun hmem => absurd (hjoins.new.2 _ hmem) (by decide)
  have hsplit : encodeQuotes (.char '"' :: cs) =
      encodeQuotes (.char '"' :: (literalRest '"' cs).1) ++ encodeQuotes (literalRest '"' cs).2 := by
    rw [← encodeQuotes_append, List.cons_append, literalRest_append]
  have hcut : (∃ front d, encodeQuotes (.char '"' :: (literalRest '"' cs).1) = front ++ [d] ∧
      isJoined d = false) ∨ ∀ d ds, encodeQuotes (literalRest '"' cs).2 = d :: ds → isJoined d = false := by
    have hq : isQuote '"' = true := rfl
    rcases literalRest_end hq cs with hend | ⟨front, d, hfront, hd⟩
    · exact .inr fun d ds heq => by simp [hend] at heq
    · rw [hfront]
      exact .inl (encodeQuotes_ends hd (.char '"' :: front))
  have hempty : encodeQuotes (.char '"' :: (literalRest '"' cs).1) ≠ [] := by
    rw [encodeQuotes_cons, encodeQuote, if_pos rfl]
    exact List.cons_ne_nil _ _
  have hkept : substitute name (fun _ _ => new) (encodeQuotes (.char '"' :: (literalRest '"' cs).1)) =
      encodeQuotes (.char '"' :: (literalRest '"' cs).1) :=
    (substituteFrom_encodeQuotes hname hne hquote [] _).trans
      (congrArg encodeQuotes (substitute_of_unused _ hunused))
  rw [hsplit, hjoins.mapPlain_append hempty (isNotQuote_encodeQuotes hsingle) hcut, hkept]

/-- Renaming encoded code is renaming the code. -/
theorem renameArgument_encodeQuotes (hname : IsName name) (hne : name ≠ "quot")
    (hnew : new ≠ [] ∧ ∀ c ∈ new, isJoined c = true) (h : KeepsDoubled name code) :
    renameArgument name new (encodeQuotes code) = encodeQuotes (renameArgument name new code) := by
  have hjoins : JoinsWords name new := ⟨hname.head, hname.isJoined, hnew⟩
  unfold KeepsDoubled at h
  unfold renameArgument
  fun_induction segments code with
  | case1 => rw [encodeQuotes_nil, mapPlain_nil, encodeQuotes_nil]
  | case2 c cs hq ih =>
    rw [literals_quote hq, List.forall_mem_cons] at h
    rw [mapPlain_literal _ hq, encodeQuotes_append, ← ih h.2]
    have hkind : c = '\'' ∨ c = '"' := by simpa [isQuote] using hq
    rcases hkind with rfl | rfl
    · exact mapPlain_encodedSingle _ cs
    · obtain ⟨hsingle, hunused⟩ := h.1 rfl
      exact mapPlain_encodedDouble hname hne hjoins hsingle hunused
  | case3 c cs hq ih =>
    have hc : isQuote c = false := by simpa using hq
    have hrun : ∀ d ∈ c :: cs.takeWhile isNotQuote, isNotQuote d = true :=
      List.forall_mem_cons.mpr ⟨by simp [isNotQuote, hc], fun d hd => List.mem_takeWhile_imp hd⟩
    have hplain : CodePoint.char '"' ∉ c :: cs.takeWhile isNotQuote := fun hmem =>
      absurd (hrun _ hmem) (by decide)
    have hquote : CodePoint.char '"' ∉ substitute name (fun _ _ => new) (c :: cs.takeWhile isNotQuote) :=
      fun hmem => absurd ((hjoins.sameAhead_substituteFrom [] _).isNotQuote hrun _ hmem) (by decide)
    have hcode : c :: cs = (c :: cs.takeWhile isNotQuote) ++ cs.dropWhile isNotQuote := by
      rw [List.cons_append, List.takeWhile_append_dropWhile]
    have hsplit : encodeQuotes (c :: cs) =
        (c :: cs.takeWhile isNotQuote) ++ encodeQuotes (cs.dropWhile isNotQuote) := by
      rw [hcode, encodeQuotes_append, encodeQuotes_eq_self hplain]
    have hcut : ∀ d ds, encodeQuotes (cs.dropWhile isNotQuote) = d :: ds → isJoined d = false := by
      intro d ds heq
      have hd : headIs isJoined (cs.dropWhile isNotQuote) = isJoined d := by
        rw [← headIs_encodeQuotes (p := isJoined) rfl, heq]
        rfl
      rw [← hd]
      cases hdrop : cs.dropWhile isNotQuote with
      | nil => rfl
      | cons e es => exact isJoined_eq_false_of_isQuote (isQuote_of_dropWhile hdrop)
    rw [literals_other (by simp [isNotQuote, hc]), ← literals_dropWhile cs] at h
    rw [hsplit, hjoins.mapPlain_append (List.cons_ne_nil _ _) hrun (.inr hcut), ih h, mapPlain_run _ hc,
      encodeQuotes_append, encodeQuotes_eq_self hquote]

/-- The code of a handler, its parameter renamed and one pair of braces around it removed. -/
def handledCode (argument code : Text) : Text := unwrapBlock (renameArgument argument eventToken code)

/-- The code of a handler, with a call for a callable that is only named. -/
def calledCode (names : List Text) (code : Text) : Text :=
  if names.contains (encodeQuotes (trim code)) then trim code ++ "()" else code

theorem unwrapBlock_braced {s cs : Text} (h : trim s = .char '\x7b' :: cs) :
    unwrapBlock s = if cs.getLast? = some '\x7d' then trim cs.dropLast else s := by
  unfold unwrapBlock
  rw [h]
  rfl

theorem unwrapBlock_bare {s : Text} (h : headIs (· == .char '\x7b') (trim s) = false) : unwrapBlock s = s := by
  unfold unwrapBlock
  split
  next hs =>
    rw [hs] at h
    cases h
  next => rfl

theorem unwrapBlock_encodeQuotes (s : Text) : unwrapBlock (encodeQuotes s) = encodeQuotes (unwrapBlock s) := by
  cases hhead : headIs (· == .char '\x7b') (trim s) with
  | false =>
    have hencoded : headIs (· == .char '\x7b') (trim (encodeQuotes s)) = false := by
      rw [trim_encodeQuotes, headIs_encodeQuotes rfl, hhead]
    rw [unwrapBlock_bare hhead, unwrapBlock_bare hencoded]
  | true =>
    obtain ⟨cs, hs⟩ : ∃ cs, trim s = .char '\x7b' :: cs := by
      cases htrim : trim s with
      | nil => simp [htrim, headIs] at hhead
      | cons c cs =>
        rw [htrim] at hhead
        exact ⟨cs, by rw [beq_iff_eq.mp hhead]⟩
    have hencoded : trim (encodeQuotes s) = .char '\x7b' :: encodeQuotes cs := by
      rw [trim_encodeQuotes, hs, encodeQuotes_cons]
      rfl
    rw [unwrapBlock_braced hs, unwrapBlock_braced hencoded]
    rcases List.eq_nil_or_concat cs with rfl | ⟨ds, d, rfl⟩
    · rfl
    · rw [List.concat_eq_append, encodeQuotes_append, encodeQuotes_cons, encodeQuotes_nil, List.append_nil]
      by_cases hd : d = '"'
      · have hmark : quoteMark = ofString "&quot" ++ [.char ';'] := rfl
        rw [encodeQuote, if_pos hd, hmark, ← List.append_assoc, hd]
        simp
      · rw [encodeQuote_of_ne hd, List.dropLast_concat, List.dropLast_concat, trim_encodeQuotes]
        simp only [List.getLast?_concat, apply_ite encodeQuotes]

/-- A handler is emitted as the encoding of its own code, when its parameter is no word of what stands
    in double quotes. -/
theorem handlerValue_encodeQuotes {argument : Text} {names : List Text} (hargument : IsName argument)
    (hne : argument ≠ "quot") (h : KeepsDoubled argument code) :
    handlerValue argument (.str (encodeQuotes code)) names =
      .ok (encodeQuotes (calledCode names (handledCode argument code))) := by
  have htoken : eventToken ≠ [] ∧ ∀ c ∈ eventToken, isJoined c = true := by decide
  have hcode : unwrapBlock (renameArgument argument eventToken (encodeQuotes code)) =
      encodeQuotes (handledCode argument code) := by
    rw [renameArgument_encodeQuotes hargument hne htoken h, unwrapBlock_encodeQuotes, handledCode]
  unfold handlerValue calledCode
  change Except.ok (if names.contains (trim (unwrapBlock (renameArgument argument eventToken (encodeQuotes code))))
    then trim (unwrapBlock (renameArgument argument eventToken (encodeQuotes code))) ++ ofString "()"
    else unwrapBlock (renameArgument argument eventToken (encodeQuotes code))) = _
  rw [hcode, trim_encodeQuotes]
  split
  next => rw [encodeQuotes_append, encodeQuotes_eq_self (s := ofString "()") (by decide)]
  next => rfl

theorem writesPlain_eventToken (argument : Text) :
    WritesPlain fun old new => old = argument ∧ ∃ _behind _ahead : Text, new = eventToken := by
  rintro _ _ ⟨-, -, -, rfl⟩
  exact ⟨by decide, fun _ => by decide⟩

theorem keepsRuns_renameArgument (argument : Text) : KeepsRuns (substitute argument fun _ _ => eventToken) :=
  keepsRuns_of_rewritten (rewritten_substituteFrom argument _ []) (writesPlain_eventToken argument)

theorem literals_renameArgument (argument code : Text) :
    literals (renameArgument argument eventToken code) = literals code :=
  literals_mapPlain (keepsRuns_renameArgument argument).noQuote code

/-- A part of a handler after its parameter is renamed: a literal is as it was, and in a run the token
    is written only where the parameter stands as a whole word and is no member. -/
inductive IsRenamed (argument : Text) : Segment → Segment → Prop
  | literal (l : Text) : IsRenamed argument (.literal l) (.literal l)
  | plain {run run' : Text} : Rewritten (fun old new => old = argument ∧ new = eventToken) [] run run' →
    IsRenamed argument (.plain run) (.plain run')

theorem isRenamed_segments (argument code : Text) :
    List.Forall₂ (IsRenamed argument) (segments code) (segments (renameArgument argument eventToken code)) := by
  rw [renameArgument, segments_mapPlain (keepsRuns_renameArgument argument), List.forall₂_map_right_iff,
    List.forall₂_same]
  rintro (l | run) -
  · exact .literal l
  · refine .plain ((rewritten_substituteFrom argument _ [] run).mono ?_)
    rintro _ _ ⟨hold, -, -, hnew⟩
    exact ⟨hold, hnew⟩

/-- Neither the braces nor the call of a handler reach its literals when they are closed. -/
theorem literals_handled {argument : Text} (names : List Text) (h : HasClosed code) :
    literals (calledCode names (handledCode argument code)) = literals code := by
  have hrenamed := literals_renameArgument argument code
  have hhandled : literals (handledCode argument code) = literals code :=
    (literals_unwrapBlock (h.congr hrenamed)).trans hrenamed
  have hclosed := h.congr hhandled
  rw [← hhandled, calledCode]
  split
  next =>
    have hcall : literals (ofString "()") = [] := by
      rw [← List.append_nil (ofString "()"), literals_run (by decide), literals_nil]
    rw [(hclosed.congr (literals_trim hclosed)).append, hcall, List.append_nil, literals_trim hclosed]
  next => rfl

end Handlers

end ElementCompiler.Markup
