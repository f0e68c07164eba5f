import ElementCompiler.Proofs.Snippet.Context
import ElementCompiler.Proofs.Snippet.Segments
import ElementCompiler.Snippet.Relocate

set_option autoImplicit false

/-!
Relocation in a single pass. Names are relocated one after the other, each in the text that the one
before it left. `placeReceptors` looks at the original text only, once, from left to right, at every
whole name; `relocate_eq_once` says that both write the same.
-/

namespace ElementCompiler.Snippet

open Text

def receptor (word : Text) : Text := word ++ [.char '.']

/-- A text that can be a name: not empty, and made of characters that continue names. -/
def IsName (s : Text) : Prop := s ≠ [] ∧ ∀ c ∈ s, continuesName c = true

/-- Whether a whole name is put behind the receptor: it is one of the names, no member, and no
    declaration. -/
def takesReceptor (names : List Text) (before name after : Text) : Bool :=
  names.contains name && !headIs (· == .char '.') before && !isBindingPosition before after

/-- One pass over a plain run; `before` is what has been passed, nearest character first. -/
def placeReceptors (lead : Text) (names : List Text) (before : Text) : Text → Text
  | [] => []
  | c :: cs =>
    if continuesName c then
      (if takesReceptor names before (c :: cs.takeWhile continuesName)
          (cs.dropWhile continuesName) then
        lead ++ c :: cs.takeWhile continuesName else c :: cs.takeWhile continuesName) ++
        placeReceptors lead names ((c :: cs.takeWhile continuesName).reverse ++ before)
          (cs.dropWhile continuesName)
    else c :: placeReceptors lead names (c :: before) cs
termination_by cs => cs.length
decreasing_by
  · have := dropWhile_length_le (p := continuesName) cs
    simp only [List.length_cons]
    omega
  · simp only [List.length_cons]
    omega

/-- The names put behind the receptor in one pass over the snippet. -/
def relocateOnce (lead : Text) (names : List Text) (code : Text) : Text :=
  mapPlain (placeReceptors lead names []) code

theorem headIs_dropWhile (p : CodePoint → Bool) (cs : Text) : headIs p (cs.dropWhile p) = false := by
  cases h : cs.dropWhile p with
  | nil => rfl
  | cons d ds =>
    have hd := List.head?_dropWhile_not p cs
    rw [h] at hd
    simpa [headIs] using hd

theorem isName_takeWhile {c : CodePoint} (hc : continuesName c = true) (cs : Text) :
    IsName (c :: cs.takeWhile continuesName) := by
  refine ⟨by simp, fun d hd => ?_⟩
  rcases List.mem_cons.mp hd with rfl | hd
  · exact hc
  · exact List.mem_takeWhile_imp hd

theorem IsName.head {name : Text} (hname : IsName name) : headIs continuesName name = true := by
  obtain ⟨c, cs, rfl⟩ := List.exists_cons_of_ne_nil hname.1
  exact hname.2 c List.mem_cons_self

theorem isName_this : IsName (ofString "this") := ⟨by decide, by decide⟩

/-- No name goes on from the one text, nearest character first, into the other. -/
def Apart (before s : Text) : Prop :=
  headIs continuesName before = false ∨ headIs continuesName s = false

/-- A whole name begins where no name is going on. -/
theorem IsName.start {name rest before : Text} (hname : IsName name)
    (hcut : Apart before (name ++ rest)) : headIs continuesName before = false := by
  refine hcut.resolve_right fun hhead => ?_
  obtain ⟨c, cs, rfl⟩ := List.exists_cons_of_ne_nil hname.1
  exact absurd (hname.2 c List.mem_cons_self) (by simpa [headIs] using hhead)

theorem IsName.isJoined {s : Text} (h : IsName s) : ∀ c ∈ s, isJoined c = true :=
  fun c hc => isJoined_of_continuesName (h.2 c hc)

theorem receptor_isJoined {word : Text} (h : IsName word) :
    ∀ c ∈ receptor word, isJoined c = true := by
  intro c hc
  rcases List.mem_append.mp hc with hc | hc
  · exact h.isJoined c hc
  · rw [List.mem_singleton.mp hc]
    rfl

theorem isJoined_receptor {word field : Text} (hword : IsName word) (hfield : IsName field) :
    ∀ c ∈ receptor word ++ field, isJoined c = true :=
  List.forall_mem_append.mpr ⟨receptor_isJoined hword, hfield.isJoined⟩

/-- Cuts a text that begins inside a name into the name and the rest. -/
theorem cons_eq_name_append (c : CodePoint) (cs : Text) :
    c :: cs = (c :: cs.takeWhile continuesName) ++ cs.dropWhile continuesName := by
  rw [List.cons_append, List.takeWhile_append_dropWhile]

theorem placeReceptors_nil (lead : Text) (names : List Text) (before : Text) :
    placeReceptors lead names before [] = [] := by
  rw [placeReceptors]

theorem placeReceptors_other (lead : Text) (names : List Text) (before : Text) {c : CodePoint}
    (hc : continuesName c = false) (cs : Text) :
    placeReceptors lead names before (c :: cs) = c :: placeReceptors lead names (c :: before) cs := by
  rw [placeReceptors, if_neg (by simp [hc])]

theorem placeReceptors_name (lead : Text) (names : List Text) (before : Text) {name rest : Text}
    (hname : IsName name) (hrest : headIs continuesName rest = false) :
    placeReceptors lead names before (name ++ rest) =
      (if takesReceptor names before name rest then lead ++ name else name) ++
        placeReceptors lead names (name.reverse ++ before) rest := by
  obtain ⟨c, cs, rfl⟩ := List.exists_cons_of_ne_nil hname.1
  have hc := hname.2 c List.mem_cons_self
  have hcs : ∀ d ∈ cs, continuesName d = true := fun d hd => hname.2 d (List.mem_cons_of_mem c hd)
  rw [List.cons_append, placeReceptors, if_pos hc, takeWhile_run hcs hrest, dropWhile_run hcs hrest]

/-- Induction over the names of a text and the characters between them. -/
theorem nameInduction {motive : Text → Prop} (nil : motive [])
    (other : ∀ c cs, continuesName c = false → motive cs → motive (c :: cs))
    (name : ∀ name rest, IsName name → headIs continuesName rest = false → motive rest →
      motive (name ++ rest)) (s : Text) : motive s := by
  match s with
  | [] => exact nil
  | c :: cs =>
    by_cases hc : continuesName c = true
    · have hlen := dropWhile_length_le (p := continuesName) cs
      rw [cons_eq_name_append]
      exact name _ _ (isName_takeWhile hc cs) (headIs_dropWhile continuesName cs)
        (nameInduction nil other name (cs.dropWhile continuesName))
    · exact other c cs (by simpa using hc) (nameInduction nil other name cs)
termination_by s.length

theorem sameAhead_placeReceptors {word : Text} (hword : IsName word) (names : List Text)
    (before s : Text) : SameAhead (placeReceptors (receptor word) names before s) s := by
  induction s using nameInduction generalizing before with
  | nil => rw [placeReceptors_nil]; exact .nil
  | other c cs hc ih => rw [placeReceptors_other _ _ _ hc]; exact .keep c (ih _)
  | name name rest hname hrest ih =>
    rw [placeReceptors_name _ _ _ hname hrest]
    split
    · exact .word (by simp [hname.1]) hname.1 (isJoined_receptor hword hname) hname.isJoined (ih _)
    · exact .word hname.1 hname.1 hname.isJoined hname.isJoined (ih _)

theorem occursAt?_run {before rest : Text} (hrest : headIs continuesName rest = false)
    (hbefore : headIs isJoined before = false) {n f : Text} (hn : ∀ c ∈ n, continuesName c = true)
    (hf : ∀ c ∈ f, continuesName c = true) :
    occursAt? n before (f ++ rest) = if n = f then some rest else none := by
  induction n generalizing f with
  | nil =>
    cases f with
    | nil => simp [occursAt?, hbefore, after?, hrest]
    | cons d ds => simp [occursAt?, after?, headIs, hf d List.mem_cons_self]
  | cons p ps ih =>
    have hp := hn p List.mem_cons_self
    cases f with
    | nil =>
      cases rest with
      | nil => simp [occursAt?, hbefore, after?]
      | cons d ds =>
        have hpd : p ≠ d := by
          rintro rfl
          simp [headIs, hp] at hrest
        simp [occursAt?, hbefore, after?, hpd]
    | cons d ds =>
      by_cases hpd : p = d
      · subst hpd
        have hstep := ih (fun c hc => hn c (List.mem_cons_of_mem p hc))
          (fun c hc => hf c (List.mem_cons_of_mem p hc))
        simpa [occursAt?, hbefore, after?] using hstep
      · simp [occursAt?, hbefore, after?, hpd]

/-- A name at the start of a text that does not begin inside a name is the first whole name. -/
theorem occursAt?_name {name first before rest : Text} (hname : IsName name) (hfirst : IsName first)
    (hrest : headIs continuesName rest = false) (hbefore : headIs isJoined before = false) :
    occursAt? name before (first ++ rest) = if name = first then some rest else none :=
  occursAt?_run hrest hbefore hname.2 hfirst.2

theorem occursAt?_other {name before cs : Text} (hname : headIs continuesName name = true)
    {c : CodePoint} (hc : continuesName c = false) : occursAt? name before (c :: cs) = none := by
  cases name with
  | nil => cases hname
  | cons d ds =>
    have hd : continuesName d = true := hname
    have hdc : d ≠ c := by
      rintro rfl
      simp [hd] at hc
    simp [occursAt?, after?, hdc]

theorem occursAt?_joined (name : Text) {before : Text} (h : headIs isJoined before = true)
    (rest : Text) : occursAt? name before rest = none := by
  rw [occursAt?, if_pos h]

section Passes

variable {name : Text} (written : Text → Text → Text)

theorem substituteFrom_nil (hname : headIs continuesName name = true) (before : Text) :
    substituteFrom name written 0 before [] = [] := by
  cases name with
  | nil => cases hname
  | cons d ds => simp [substituteFrom, occursAt?, after?]

theorem substituteFrom_of_none {before : Text} {c : CodePoint} {cs : Text}
    (h : occursAt? name before (c :: cs) = none) :
    substituteFrom name written 0 before (c :: cs) =
      c :: substituteFrom name written 0 (c :: before) cs := by
  rw [substituteFrom, h]

theorem substituteFrom_joined {run : Text} (hrun : ∀ c ∈ run, isJoined c = true) {before : Text}
    (hbefore : headIs isJoined before = true) (rest : Text) :
    substituteFrom name written 0 before (run ++ rest) =
      run ++ substituteFrom name written 0 (run.reverse ++ before) rest := by
  induction run generalizing before with
  | nil => rfl
  | cons c cs ih =>
    have hc := hrun c List.mem_cons_self
    have hcs : substituteFrom name written 0 (c :: before) (cs ++ rest) = _ :=
      ih (fun d hd => hrun d (List.mem_cons_of_mem c hd)) hc
    rw [List.cons_append, substituteFrom_of_none written (occursAt?_joined name hbefore _), hcs]
    simp

theorem substituteFrom_skip (name run before rest : Text) :
    substituteFrom name written run.length before (run ++ rest) =
      substituteFrom name written 0 (run.reverse ++ before) rest := by
  induction run generalizing before with
  | nil => rfl
  | cons c cs ih =>
    rw [List.length_cons, List.cons_append, substituteFrom, ih]
    simp

/-- A name at which nothing occurs is passed over as a whole. -/
theorem substituteFrom_passed {first before rest : Text} (hfirst : IsName first)
    (hnone : occursAt? name before (first ++ rest) = none) :
    substituteFrom name written 0 before (first ++ rest) =
      first ++ substituteFrom name written 0 (first.reverse ++ before) rest := by
  obtain ⟨c, cs, rfl⟩ := List.exists_cons_of_ne_nil hfirst.1
  have hc : headIs isJoined (c :: before) = true := hfirst.isJoined c List.mem_cons_self
  have hcs : ∀ d ∈ cs, isJoined d = true := fun d hd => hfirst.isJoined d (List.mem_cons_of_mem c hd)
  rw [List.cons_append] at hnone ⊢
  rw [substituteFrom_of_none written hnone, substituteFrom_joined written hcs hc]
  simp

/-- The first whole name of a text is passed over when it is another one. -/
theorem substituteFrom_otherName (hname : IsName name) {first before rest : Text}
    (hfirst : IsName first) (hrest : headIs continuesName rest = false)
    (h : headIs isJoined before = true ∨ name ≠ first) :
    substituteFrom name written 0 before (first ++ rest) =
      first ++ substituteFrom name written 0 (first.reverse ++ before) rest := by
  refine substituteFrom_passed written hfirst ?_
  by_cases hbefore : headIs isJoined before = true
  · exact occursAt?_joined name hbefore _
  · rw [occursAt?_name hname hfirst hrest (by simpa using hbefore), if_neg (h.resolve_left hbefore)]

theorem substituteFrom_sameName (hname : IsName name) {before rest : Text}
    (hrest : headIs continuesName rest = false) (hbefore : headIs isJoined before = false) :
    substituteFrom name written 0 before (name ++ rest) =
      written before rest ++ substituteFrom name written 0 (name.reverse ++ before) rest := by
  have hsome := occursAt?_name hname hname hrest hbefore
  rw [if_pos rfl] at hsome
  obtain ⟨c, cs, rfl⟩ := List.exists_cons_of_ne_nil hname.1
  have hskip := substituteFrom_skip written (c :: cs) cs (c :: before) rest
  rw [List.cons_append] at hsome ⊢
  rw [substituteFrom, hsome]
  simpa using hskip

/-- Characters between names are passed over. -/
theorem substituteFrom_others (hname : IsName name) {run : Text}
    (hrun : ∀ c ∈ run, continuesName c = false) (before rest : Text) :
    substituteFrom name written 0 before (run ++ rest) =
      run ++ substituteFrom name written 0 (run.reverse ++ before) rest := by
  induction run generalizing before with
  | nil => rfl
  | cons c cs ih =>
    rw [List.forall_mem_cons] at hrun
    rw [List.cons_append, substituteFrom_of_none _ (occursAt?_other hname.head hrun.1), ih hrun.2]
    simp

/-- What a receptor was put before is passed over with it. -/
theorem substituteFrom_receptor {word first : Text} (hname : IsName name) (hword : IsName word)
    (hne : name ≠ word) (hfirst : IsName first) (before rest : Text) :
    substituteFrom name written 0 before (receptor word ++ first ++ rest) =
      receptor word ++ first ++ substituteFrom name written 0
        (first.reverse ++ .char '.' :: (word.reverse ++ before)) rest := by
  have hsplit : ∀ tail : Text,
      receptor word ++ first ++ tail = word ++ .char '.' :: (first ++ tail) := by
    simp [receptor]
  have hpoint : continuesName (.char '.') = false := by decide
  have hhead : ∀ tail, headIs continuesName (.char '.' :: tail) = false := fun _ => hpoint
  rw [hsplit, hsplit, substituteFrom_otherName written hname hword (hhead _) (Or.inr hne),
    substituteFrom_of_none written (occursAt?_other hname.head hpoint),
    substituteFrom_joined written hfirst.isJoined rfl]

end Passes

theorem headIs_continuesName {s : Text} (h : headIs isJoined s = false) :
    headIs continuesName s = false := by
  cases s with
  | nil => rfl
  | cons c cs => exact (Bool.or_eq_false_iff.mp h).1

theorem headIs_isWord {s : Text} (h : headIs continuesName s = false) :
    headIs (·.is isWord) s = false := by
  cases s with
  | nil => rfl
  | cons c cs =>
    refine Bool.eq_false_iff.mpr fun hc => ?_
    exact absurd (continuesName_of_isWord hc) (by simpa [headIs] using h)

/-- Right behind a name stands a character of it. -/
theorem headIs_name {name : Text} (hname : IsName name) {p : CodePoint → Bool} {b : Bool}
    (hp : ∀ c, continuesName c = true → p c = b) (before : Text) :
    headIs p (name.reverse ++ before) = b := by
  obtain ⟨c, cs, hc⟩ := List.exists_cons_of_ne_nil (List.reverse_ne_nil_iff.mpr hname.1)
  rw [hc]
  exact hp c (hname.2 c (List.mem_reverse.mp (hc ▸ List.mem_cons_self)))

theorem headIs_isJoined_name {name : Text} (hname : IsName name) (before : Text) :
    headIs isJoined (name.reverse ++ before) = true :=
  headIs_name hname (fun _ => isJoined_of_continuesName) before

theorem headIs_placeReceptors (lead : Text) (names : List Text) (before : Text) {s : Text}
    (h : headIs continuesName s = false) :
    headIs continuesName (placeReceptors lead names before s) = false := by
  cases s with
  | nil => rw [placeReceptors_nil]; rfl
  | cons c cs => rw [placeReceptors_other _ _ _ h]; exact h

theorem takesReceptor_append (names more : List Text) (before first after : Text) :
    takesReceptor (names ++ more) before first after =
      (takesReceptor names before first after || takesReceptor more before first after) := by
  have hmem : (names ++ more).contains first = (names.contains first || more.contains first) := by
    rw [Bool.eq_iff_iff, Bool.or_eq_true, List.contains_iff_mem, List.contains_iff_mem,
      List.contains_iff_mem, List.mem_append]
  simp only [takesReceptor, hmem]
  cases names.contains first <;> cases more.contains first <;> simp

/-- What a name becomes where it stands, given the text behind and ahead of it. -/
def receptorUnlessDeclared (lead name before after : Text) : Text :=
  if isBindingPosition before after then name else lead ++ name

/-- A pass for one more name, over what the passes before it left, writes what a single pass writes
    for all the names together. -/
theorem substituteFrom_placeReceptors {word name : Text} (hword : IsName word) (hname : IsName name)
    (hne : name ≠ word) (names : List Text) (s before out : Text) (hsame : SameBehind out before)
    (hcut : Apart before s) :
    substituteFrom name (receptorUnlessDeclared (receptor word) name) 0 out
        (placeReceptors (receptor word) names before s) =
      placeReceptors (receptor word) (names ++ [name]) before s := by
  induction s using nameInduction generalizing before out with
  | nil => rw [placeReceptors_nil, placeReceptors_nil, substituteFrom_nil _ hname.head]
  | other c cs hc ih =>
    rw [placeReceptors_other _ _ _ hc, placeReceptors_other _ _ _ hc,
      substituteFrom_of_none _ (occursAt?_other hname.head hc), ih _ _ (hsame.keep c) (Or.inl hc)]
  | name first rest hfirst hrest ih =>
    have hstart := hfirst.start hcut
    have htail := headIs_placeReceptors (receptor word) names (first.reverse ++ before) hrest
    have hahead := sameAhead_placeReceptors hword names (first.reverse ++ before) rest
    have hdot : headIs isJoined out = headIs (· == .char '.') before := by
      rw [hsame.headIs_eq]
      cases before with
      | nil => rfl
      | cons c cs =>
        have hc : continuesName c = false := hstart
        simp [headIs, isJoined, hc]
    rw [placeReceptors_name _ _ _ hfirst hrest, placeReceptors_name _ _ _ hfirst hrest,
      takesReceptor_append]
    by_cases htaken : takesReceptor names before first rest = true
    · -- the receptor is there already: what it puts in is no name that is looked for
      have hbehind : SameBehind (first.reverse ++ .char '.' :: (word.reverse ++ out))
          (first.reverse ++ before) :=
        .name (by simp [hfirst.1]) (fun c hc => hfirst.2 c (by simpa using hc)) rfl
          (headIs_isWord hstart)
      rw [if_pos htaken, htaken, Bool.true_or, if_pos rfl,
        substituteFrom_receptor _ hname hword hne hfirst, ih _ _ hbehind (Or.inr hrest)]
    · have hfalse : takesReceptor names before first rest = false := by simpa using htaken
      rw [hfalse, Bool.false_or, if_neg Bool.false_ne_true]
      have hbehind := hsame.prepend first.reverse
      by_cases hhit : headIs (· == .char '.') before = false ∧ name = first
      · obtain ⟨hpoint, rfl⟩ := hhit
        have hposition := isBindingPosition_eq hsame hahead
        rw [substituteFrom_sameName _ hname htail (hdot.trans hpoint), ih _ _ hbehind (Or.inr hrest),
          receptorUnlessDeclared, hposition, takesReceptor, hpoint]
        by_cases hbinding : isBindingPosition before rest = true <;> simp [hbinding]
      · have hmiss : takesReceptor [name] before first rest = false := by
          rw [takesReceptor]
          by_cases hpoint : headIs (· == .char '.') before = false
          · have hother : ¬ first = name := fun e => hhit ⟨hpoint, e.symm⟩
            simp [hother]
          · simp [hpoint]
        have hother : headIs isJoined out = true ∨ name ≠ first := by
          rw [hdot]
          by_cases hpoint : headIs (· == .char '.') before = false
          · exact Or.inr fun e => hhit ⟨hpoint, e⟩
          · exact Or.inl (by simpa using hpoint)
        rw [substituteFrom_otherName _ hname hfirst htail hother, ih _ _ hbehind (Or.inr hrest),
          hmiss, if_neg Bool.false_ne_true]

theorem isNotQuote_of_continuesName {c : CodePoint} (h : continuesName c = true) :
    isNotQuote c = true := by
  rw [isNotQuote, Bool.not_eq_true', isQuote, Bool.or_eq_false_iff, decide_eq_false_iff_not,
    decide_eq_false_iff_not]
  exact ⟨by rintro rfl; revert h; decide, by rintro rfl; revert h; decide⟩

theorem isNotQuote_of_isJoined {c : CodePoint} (h : isJoined c = true) : isNotQuote c = true := by
  rcases Bool.or_eq_true_iff.mp h with hc | hc
  · exact isNotQuote_of_continuesName hc
  · rw [beq_iff_eq.mp hc]
    rfl

theorem SameAhead.isNotQuote {s t : Text} (h : SameAhead s t)
    (ht : ∀ c ∈ t, Snippet.isNotQuote c = true) : ∀ c ∈ s, Snippet.isNotQuote c = true := by
  induction h with
  | nil => simp
  | keep c _ ih =>
    rw [List.forall_mem_cons] at ht ⊢
    exact ⟨ht.1, ih ht.2⟩
  | word _ _ hv _ _ ih =>
    rw [List.forall_mem_append] at ht ⊢
    exact ⟨fun c hc => isNotQuote_of_isJoined (hv c hc), ih ht.2⟩

theorem isNotQuote_receptor {word : Text} (hword : IsName word) :
    ∀ c ∈ receptor word, isNotQuote c = true :=
  fun c hc => isNotQuote_of_isJoined (receptor_isJoined hword c hc)

/-- A pass that changes words only moves no border of a segment. -/
theorem keepsRuns_of_sameAhead {f : Text → Text} (h : ∀ run, SameAhead (f run) run) :
    KeepsRuns f where
  noQuote := fun run hrun => (h run).isNotQuote hrun
  notEmpty := by
    intro run hrun hnone
    have hsame := h run
    rw [hnone] at hsame
    exact hrun hsame.eq_nil

theorem keepsRuns_placeReceptors {word : Text} (hword : IsName word) (names : List Text) :
    KeepsRuns (placeReceptors (receptor word) names []) :=
  keepsRuns_of_sameAhead fun run => sameAhead_placeReceptors hword names [] run

end ElementCompiler.Snippet
