import ElementCompiler.Proofs.Snippet.Passes

set_option autoImplicit false

/-!
References to members through their group. `memberInduction` reads a run by its names and by the
references among them; `strip` is described along it. What `strip` writes has no such reference
left, and gives no name a receptor that it did not take before.
-/

namespace ElementCompiler.Snippet

open Text

/-- The objects through which code reaches members. -/
def memberGroups : List Text := ["state", "props"]

/-- Whether a member can be named here, behind its group. -/
def opensMember : Text → Bool
  | .char '.' :: c :: _ => c.is isNameStart
  | _ => false

/-- No group is followed by a member anywhere in the text. -/
def NoReference (before s : Text) : Prop :=
  ∀ near rest, s = near ++ rest → memberAt? (near.reverse ++ before) rest = none

theorem continuesName_of_isNameStart {c : CodePoint} (h : c.is isNameStart = true) :
    continuesName c = true := by
  cases c with
  | half n => simp [CodePoint.is] at h
  | char c => exact isMember_of_isNameStart h

theorem isName_of_mem_memberGroups {group : Text} (h : group ∈ memberGroups) : IsName group := by
  have hall : ∀ g ∈ memberGroups, g ≠ [] ∧ ∀ c ∈ g, continuesName c = true := by decide
  exact hall group h

theorem length_of_mem_memberGroups : ∀ group ∈ memberGroups, group.length = 5 := by
  decide

/-- A name with a mark behind it is found only where that name stands as a whole. -/
theorem after?_name {w name tail rest : Text} (hw : ∀ c ∈ w, continuesName c = true)
    (hname : ∀ c ∈ name, continuesName c = true) (hne : tail ≠ [])
    (htail : headIs continuesName tail = false) (hrest : headIs continuesName rest = false) :
    after? (w ++ tail) (name ++ rest) = if w = name then after? tail rest else none := by
  induction w generalizing name with
  | nil =>
    cases name with
    | nil => simp
    | cons d ds =>
      obtain ⟨t, ts, rfl⟩ := List.exists_cons_of_ne_nil hne
      have htd : t ≠ d := by
        rintro rfl
        simp [headIs, hname t List.mem_cons_self] at htail
      simp [after?, htd]
  | cons p ps ih =>
    have hp := hw p List.mem_cons_self
    cases name with
    | nil =>
      cases rest with
      | nil => simp [after?]
      | cons d ds =>
        have hpd : p ≠ d := by
          rintro rfl
          simp [headIs, hp] at hrest
        simp [after?, hpd]
    | cons d ds =>
      have hstep := ih (fun c hc => hw c (List.mem_cons_of_mem p hc))
        (fun c hc => hname c (List.mem_cons_of_mem d hc))
      by_cases hpd : p = d
      · subst hpd
        simpa [after?] using hstep
      · simp [after?, hpd]

/-- A member that is named is a name. -/
theorem isName_of_memberAt? {before rest name : Text} (h : memberAt? before rest = some name) :
    IsName name := by
  rw [memberAt?] at h
  split at h
  next => cases h
  split at h
  next c cs _ =>
    split at h
    next hc =>
      obtain rfl := Option.some.inj h
      refine ⟨List.cons_ne_nil _ _, List.forall_mem_cons.mpr ⟨continuesName_of_isNameStart hc, ?_⟩⟩
      exact fun d hd => List.mem_takeWhile_imp hd
    next => cases h
  next => cases h

theorem memberAt?_nil (before : Text) : memberAt? before [] = none := by
  simp [memberAt?, after?, ofString]

theorem memberAt?_joined {before : Text} (h : headIs isJoined before = true) (rest : Text) :
    memberAt? before rest = none := by
  rw [memberAt?, if_pos h]

theorem memberAt?_other (before : Text) {c : CodePoint} (hc : continuesName c = false) (cs : Text) :
    memberAt? before (c :: cs) = none := by
  have hs : CodePoint.char 's' ≠ c := by rintro rfl; revert hc; decide
  have hp : CodePoint.char 'p' ≠ c := by rintro rfl; revert hc; decide
  simp [memberAt?, after?, ofString, hs, hp]

theorem afterGroup?_name {name rest : Text} (hname : IsName name)
    (hrest : headIs continuesName rest = false) :
    ((after? "state." (name ++ rest)).orElse fun _ => after? "props." (name ++ rest)) =
      if name ∈ memberGroups then after? [.char '.'] rest else none := by
  have hpoint : headIs continuesName [.char '.'] = false := by decide
  have hgroup : ∀ g ∈ memberGroups, after? (g ++ [.char '.']) (name ++ rest) =
      if g = name then after? [.char '.'] rest else none :=
    fun g hg => after?_name (isName_of_mem_memberGroups hg).2 hname.2 (List.cons_ne_nil _ _) hpoint
      hrest
  have hstate := hgroup "state" (by decide)
  have hprops := hgroup "props" (by decide)
  change after? "state." (name ++ rest) = _ at hstate
  change after? "props." (name ++ rest) = _ at hprops
  rw [hstate, hprops]
  by_cases hs : ofString "state" = name
  · subst hs
    have hmem : ofString "state" ∈ memberGroups := by decide
    have hne : ¬ ofString "props" = ofString "state" := by decide
    rw [if_pos rfl, if_pos hmem, if_neg hne]
    cases after? [.char '.'] rest <;> rfl
  · rw [if_neg hs]
    change (if ofString "props" = name then after? [.char '.'] rest else none) = _
    have hiff : name ∈ memberGroups ↔ ofString "props" = name := by
      rw [memberGroups, List.mem_cons, List.mem_singleton]
      exact ⟨fun h => (h.resolve_left fun e => hs e.symm).symm, fun h => Or.inr h.symm⟩
    simp only [hiff]

/-- Where a name stands free, a member is named through it when it is a group and a member is named
    behind it. -/
theorem memberAt?_name {before name rest : Text} (hname : IsName name)
    (hrest : headIs continuesName rest = false) (hbefore : headIs isJoined before = false) :
    memberAt? before (name ++ rest) =
      if name ∈ memberGroups ∧ opensMember rest = true then some (rest.tail.takeWhile continuesName)
      else none := by
  rw [memberAt?, hbefore, if_neg Bool.false_ne_true, afterGroup?_name hname hrest]
  by_cases hmem : name ∈ memberGroups
  · rw [if_pos hmem]
    match rest with
    | [] => simp [after?, opensMember]
    | [c] => by_cases hc : CodePoint.char '.' = c <;> simp [after?, opensMember, hc]
    | c :: d :: ds =>
      by_cases hc : CodePoint.char '.' = c
      · subst hc
        by_cases hd : d.is isNameStart = true
        · have hdn := continuesName_of_isNameStart hd
          simp [after?, opensMember, hmem, hd, hdn]
        · simp [after?, opensMember, hd]
      · have hmiss : opensMember (c :: d :: ds) = false := by
          unfold opensMember
          split
          next h => simp_all
          next => rfl
        simp [after?, hc, hmiss]
  · simp [hmem]

theorem memberAt?_name_none {before name rest : Text} (hname : IsName name)
    (hrest : headIs continuesName rest = false)
    (h : headIs isJoined before = true ∨ name ∉ memberGroups ∨ opensMember rest = false) :
    memberAt? before (name ++ rest) = none := by
  by_cases hbefore : headIs isJoined before = true
  · exact memberAt?_joined hbefore _
  · rw [memberAt?_name hname hrest (by simpa using hbefore), if_neg]
    rintro ⟨hmem, hopen⟩
    rcases h.resolve_left hbefore with h | h
    · exact h hmem
    · simp [h] at hopen

/-- Induction over the names of a text, the references among them and the characters between
    them. -/
theorem memberInduction {motive : Text → Text → Prop} (nil : ∀ before, motive before [])
    (other : ∀ before c cs, continuesName c = false → motive (c :: before) cs →
      motive before (c :: cs))
    (name : ∀ before name rest, IsName name → headIs continuesName rest = false →
      (headIs isJoined before = true ∨ name ∉ memberGroups ∨ opensMember rest = false) →
      motive (name.reverse ++ before) rest → motive before (name ++ rest))
    (member : ∀ before group member rest, group ∈ memberGroups → headIs isJoined before = false →
      IsName member → headIs (·.is isNameStart) member = true → headIs continuesName rest = false →
      motive (member.reverse ++ .char '.' :: (group.reverse ++ before)) rest →
      motive before (group ++ .char '.' :: (member ++ rest))) (before s : Text) :
    motive before s := by
  match s with
  | [] => exact nil before
  | c :: cs =>
    by_cases hc : continuesName c = true
    · have hname := isName_takeWhile hc cs
      have hrest := headIs_dropWhile continuesName cs
      have hlen := dropWhile_length_le (p := continuesName) cs
      rw [cons_eq_name_append]
      by_cases h : headIs isJoined before = true ∨ c :: cs.takeWhile continuesName ∉ memberGroups ∨
          opensMember (cs.dropWhile continuesName) = false
      · exact name _ _ _ hname hrest h (memberInduction nil other name member _ _)
      · push Not at h
        obtain ⟨hbefore, hgroup, hopen⟩ := h
        match hdrop : cs.dropWhile continuesName with
        | [] => simp [hdrop, opensMember] at hopen
        | [d] => simp [hdrop, opensMember] at hopen
        | d :: e :: es =>
          have hpoint : d = .char '.' ∧ e.is isNameStart = true := by
            rw [hdrop] at hopen
            unfold opensMember at hopen
            split at hopen
            next he => simp_all
            next => simp at hopen
          obtain ⟨rfl, he⟩ := hpoint
          have hen := continuesName_of_isNameStart he
          have hshort : (es.dropWhile continuesName).length < (c :: cs).length := by
            have hes := dropWhile_length_le (p := continuesName) es
            rw [hdrop] at hlen
            simp only [List.length_cons] at hlen ⊢
            omega
          rw [cons_eq_name_append e es]
          exact member _ _ _ _ hgroup (by simpa using hbefore) (isName_takeWhile hen es) he
            (headIs_dropWhile continuesName es) (memberInduction nil other name member _ _)
    · exact other before c cs (by simpa using hc) (memberInduction nil other name member _ _)
termination_by s.length
decreasing_by all_goals simp only [List.length_cons] at *; omega

section Strip

variable (r : Receptor)

theorem stripFrom_of_none {before : Text} {c : CodePoint} {cs : Text}
    (h : memberAt? before (c :: cs) = none) :
    stripFrom r 0 before (c :: cs) = c :: stripFrom r 0 (c :: before) cs := by
  rw [stripFrom, h]

theorem stripFrom_nil (before : Text) : stripFrom r 0 before [] = [] := by
  rw [stripFrom]

theorem stripFrom_other (before : Text) {c : CodePoint} (hc : continuesName c = false) (cs : Text) :
    stripFrom r 0 before (c :: cs) = c :: stripFrom r 0 (c :: before) cs :=
  stripFrom_of_none r (memberAt?_other before hc cs)

theorem stripFrom_others {run : Text} (hrun : ∀ c ∈ run, continuesName c = false)
    (before rest : Text) :
    stripFrom r 0 before (run ++ rest) = run ++ stripFrom r 0 (run.reverse ++ before) rest := by
  induction run generalizing before with
  | nil => rfl
  | cons c cs ih =>
    rw [List.forall_mem_cons] at hrun
    rw [List.cons_append, stripFrom_other r _ hrun.1, ih hrun.2]
    simp

theorem stripFrom_joined {run : Text} (hrun : ∀ c ∈ run, isJoined c = true) {before : Text}
    (hbefore : headIs isJoined before = true) (rest : Text) :
    stripFrom r 0 before (run ++ rest) = run ++ stripFrom r 0 (run.reverse ++ before) rest := by
  induction run generalizing before with
  | nil => rfl
  | cons c cs ih =>
    have hc := hrun c List.mem_cons_self
    have hcs : stripFrom r 0 (c :: before) (cs ++ rest) = _ :=
      ih (fun d hd => hrun d (List.mem_cons_of_mem c hd)) hc
    rw [List.cons_append, stripFrom_of_none r (memberAt?_joined hbefore _), hcs]
    simp

theorem stripFrom_skip (run before rest : Text) :
    stripFrom r run.length before (run ++ rest) = stripFrom r 0 (run.reverse ++ before) rest := by
  induction run generalizing before with
  | nil => rfl
  | cons c cs ih =>
    rw [List.length_cons, List.cons_append, stripFrom, ih]
    simp

/-- A name through which no member is named is passed over. -/
theorem stripFrom_name {before name rest : Text} (hname : IsName name)
    (hrest : headIs continuesName rest = false)
    (h : headIs isJoined before = true ∨ name ∉ memberGroups ∨ opensMember rest = false) :
    stripFrom r 0 before (name ++ rest) = name ++ stripFrom r 0 (name.reverse ++ before) rest := by
  have hnone := memberAt?_name_none hname hrest h
  obtain ⟨c, cs, rfl⟩ := List.exists_cons_of_ne_nil hname.1
  have hc : headIs isJoined (c :: before) = true := hname.isJoined c List.mem_cons_self
  have hcs : ∀ d ∈ cs, isJoined d = true := fun d hd => hname.isJoined d (List.mem_cons_of_mem c hd)
  rw [List.cons_append] at hnone ⊢
  rw [stripFrom_of_none r hnone, stripFrom_joined r hcs hc]
  simp

theorem stripFrom_member {before group member rest : Text} (hgroup : group ∈ memberGroups)
    (hbefore : headIs isJoined before = false) (hmember : IsName member)
    (hstart : headIs (·.is isNameStart) member = true) (hrest : headIs continuesName rest = false) :
    stripFrom r 0 before (group ++ .char '.' :: (member ++ rest)) =
      r member ++ stripFrom r 0 (member.reverse ++ .char '.' :: (group.reverse ++ before)) rest := by
  have hname := isName_of_mem_memberGroups hgroup
  have hlen := length_of_mem_memberGroups group hgroup
  have hopen : opensMember (.char '.' :: (member ++ rest)) = true := by
    obtain ⟨c, cs, rfl⟩ := List.exists_cons_of_ne_nil hmember.1
    exact hstart
  have hsome : memberAt? before (group ++ .char '.' :: (member ++ rest)) = _ :=
    memberAt?_name hname (by rfl) hbefore
  rw [if_pos ⟨hgroup, hopen⟩, List.tail_cons, takeWhile_run hmember.2 hrest] at hsome
  obtain ⟨c, cs, rfl⟩ := List.exists_cons_of_ne_nil hname.1
  have hskip := stripFrom_skip r (cs ++ .char '.' :: member) (c :: before) rest
  have hcount : leadLength + member.length - 1 = (cs ++ .char '.' :: member).length := by
    simp only [List.length_cons, List.length_append] at hlen ⊢
    unfold leadLength
    omega
  have happend : cs ++ .char '.' :: (member ++ rest) = (cs ++ .char '.' :: member) ++ rest := by simp
  rw [List.cons_append] at hsome ⊢
  rw [stripFrom, hsome]
  change r member ++ stripFrom r (leadLength + member.length - 1) (c :: before) _ = _
  rw [hcount, happend, hskip]
  simp

theorem headIs_stripFrom (before : Text) {s : Text} (h : headIs continuesName s = false) :
    headIs continuesName (stripFrom r 0 before s) = false := by
  cases s with
  | nil => rw [stripFrom_nil]; rfl
  | cons c cs => rw [stripFrom_other r _ h]; exact h

/-- What follows a name opens a member after stripping when it did before. -/
theorem opensMember_stripFrom (before : Text) {s : Text} (h : headIs continuesName s = false) :
    opensMember (stripFrom r 0 before s) = opensMember s := by
  cases s with
  | nil => rw [stripFrom_nil]
  | cons c cs =>
    rw [stripFrom_other r _ h]
    by_cases hc : c = .char '.'
    · subst hc
      cases cs with
      | nil => rw [stripFrom_nil]
      | cons d ds => rw [stripFrom_of_none r (memberAt?_joined rfl _)]; rfl
    · have hmiss : ∀ t, opensMember (c :: t) = false := by
        intro t
        unfold opensMember
        split
        next h => simp_all
        next => rfl
      rw [hmiss, hmiss]

theorem stripFrom_of_noReference {before s : Text} (h : NoReference before s) :
    stripFrom r 0 before s = s := by
  induction s generalizing before with
  | nil => rw [stripFrom_nil]
  | cons c cs ih =>
    have hhere : memberAt? before (c :: cs) = none := h [] (c :: cs) rfl
    have hrest : NoReference (c :: before) cs := by
      intro near rest hcs
      have hnear := h (c :: near) rest (by rw [hcs, List.cons_append])
      simpa using hnear
    rw [stripFrom_of_none r hhere, ih hrest]

end Strip

theorem NoReference.nil (before : Text) : NoReference before [] := by
  intro near rest h
  obtain ⟨_, rfl⟩ := List.append_eq_nil_iff.mp h.symm
  exact memberAt?_nil _

theorem NoReference.cons {before : Text} {c : CodePoint} {cs : Text}
    (hhere : memberAt? before (c :: cs) = none) (h : NoReference (c :: before) cs) :
    NoReference before (c :: cs) := by
  intro near rest hs
  cases near with
  | nil =>
    rw [List.nil_append] at hs
    rw [← hs]
    exact hhere
  | cons d ds =>
    rw [List.cons_append, List.cons.injEq] at hs
    obtain ⟨rfl, hcs⟩ := hs
    simpa using h ds rest hcs

theorem NoReference.joined {run before rest : Text} (hrun : ∀ c ∈ run, isJoined c = true)
    (hbefore : headIs isJoined before = true) (h : NoReference (run.reverse ++ before) rest) :
    NoReference before (run ++ rest) := by
  induction run generalizing before with
  | nil => exact h
  | cons c cs ih =>
    have hcs : NoReference (c :: before) (cs ++ rest) :=
      ih (fun d hd => hrun d (List.mem_cons_of_mem c hd)) (hrun c List.mem_cons_self)
        (by simpa using h)
    exact .cons (memberAt?_joined hbefore _) hcs

theorem NoReference.name {before name rest : Text} (hname : IsName name)
    (hrest : headIs continuesName rest = false)
    (h : headIs isJoined before = true ∨ name ∉ memberGroups ∨ opensMember rest = false)
    (hno : NoReference (name.reverse ++ before) rest) : NoReference before (name ++ rest) := by
  have hnone := memberAt?_name_none hname hrest h
  obtain ⟨c, cs, rfl⟩ := List.exists_cons_of_ne_nil hname.1
  have hcs : NoReference (c :: before) (cs ++ rest) :=
    .joined (fun d hd => hname.isJoined d (List.mem_cons_of_mem c hd))
      (hname.isJoined c List.mem_cons_self) (by simpa using hno)
  exact .cons hnone hcs

/-- A receptor that writes a field behind a word, which is none of the names. -/
def Leads (names : List Text) (r : Receptor) : Prop := ∀ member, IsName member → ∃ word field,
  r member = receptor word ++ field ∧ IsName word ∧ word ∉ names ∧ IsName field ∧
    (declares member.reverse = true → declares field.reverse = true)

theorem leads_before {word : Text} (hword : IsName word) {names : List Text} (hnot : word ∉ names) :
    Leads names (.before (receptor word)) :=
  fun member hmember => ⟨word, member, rfl, hword, hnot, hmember, id⟩

section Receptor

variable {names : List Text} {r : Receptor}

/-- Behind words that are no groups, the members are reached without one. -/
theorem noReference_stripFrom (hr : Leads memberGroups r) (before s out : Text)
    (hout : headIs isJoined out = headIs isJoined before) :
    NoReference out (stripFrom r 0 before s) := by
  induction before, s using memberInduction generalizing out with
  | nil before => rw [stripFrom_nil]; exact .nil out
  | other before c cs hc ih =>
    rw [stripFrom_other _ _ hc]
    exact .cons (memberAt?_other out hc _) (ih (c :: out) rfl)
  | name before name rest hname hrest h ih =>
    have hhead : headIs isJoined (name.reverse ++ out) = headIs isJoined (name.reverse ++ before) :=
      (headIs_isJoined_name hname _).trans (headIs_isJoined_name hname _).symm
    rw [stripFrom_name _ hname hrest h]
    refine .name hname (headIs_stripFrom _ _ hrest) ?_ (ih _ hhead)
    rwa [hout, opensMember_stripFrom _ _ hrest]
  | member before group member rest hg hbefore hmember hstart hrest ih =>
    obtain ⟨word, field, hwritten, hword, hgroup, hfield, _⟩ := hr member hmember
    have hpoint : ∀ t, headIs continuesName (.char '.' :: t) = false := fun _ => by rfl
    have hhead : headIs isJoined (field.reverse ++ .char '.' :: (word.reverse ++ out)) =
        headIs isJoined (member.reverse ++ .char '.' :: (group.reverse ++ before)) :=
      (headIs_isJoined_name hfield _).trans (headIs_isJoined_name hmember _).symm
    have hsplit : ∀ tail : Text, r member ++ tail = word ++ .char '.' :: (field ++ tail) := by
      simp [hwritten, receptor]
    rw [stripFrom_member _ hg hbefore hmember hstart hrest, hsplit]
    refine .name hword (hpoint _) (Or.inr (Or.inl hgroup)) (.cons (memberAt?_other _ (by rfl) _) ?_)
    exact .joined hfield.isJoined rfl (ih _ hhead)

end Receptor

end ElementCompiler.Snippet
