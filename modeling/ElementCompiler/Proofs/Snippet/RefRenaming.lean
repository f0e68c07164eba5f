import ElementCompiler.Proofs.Component.Refs
import ElementCompiler.Proofs.Entries
import ElementCompiler.Proofs.Snippet.LiteralPasses
import ElementCompiler.Proofs.Snippet.Relocated

set_option autoImplicit false

/-!
Refs renamed in a single pass. Refs are relocated one after the other, each in the text that the one
before it left, and each in two passes. `renameRefs` looks at the original snippet only, once, at
every whole name; `relocateEach_eq` says that both write the same, unless a field is the name of
another ref or a ref is named like a word that declares the name after it.
-/

namespace ElementCompiler.Snippet

open Attempt Text

/-- What follows `.current` where it comes next as a whole. -/
def afterCurrent? (rest : Text) : Option Text :=
  match after? ".current" rest with
  | some after => if headIs continuesName after then none else some after
  | none => none

/-- What is read with a name, and what follows it: of a ref the current value. -/
def readName (refs : List Text) (before name rest : Text) : Text × Text :=
  if refs.contains name && !headIs (· == .char '.') before then
    match afterCurrent? rest with
    | some after => (name ++ ".current", after)
    | none => (name, rest)
  else (name, rest)

/-- What a name is written as: a ref that is read as its field behind the receptor, every other name,
    a member and a declaration as they are. -/
def writtenName (lead : Text) (fields : List (Text × Text)) (before name after : Text) : Text :=
  if headIs (· == .char '.') before then name
  else match Entries.get? fields name with
    | none => name
    | some field => if isBindingPosition before after then name else lead ++ field

theorem afterCurrent?_eq_some {rest after : Text} : afterCurrent? rest = some after ↔
    rest = ".current" ++ after ∧ headIs continuesName after = false := by
  rw [afterCurrent?]
  constructor
  · intro h
    split at h
    next hrest =>
      split at h
      next => cases h
      next hafter =>
        obtain rfl := Option.some.inj h
        exact ⟨eq_append_of_after? hrest, by simpa using hafter⟩
    next => cases h
  · rintro ⟨rfl, hafter⟩
    rw [after?_append]
    exact if_neg (by simp [hafter])

/-- A name is read by itself, or it is a ref and read with `.current`. -/
theorem readName_cases (refs : List Text) (before name rest : Text) :
    readName refs before name rest = (name, rest) ∨
      name ∈ refs ∧ headIs (· == .char '.') before = false ∧ ∃ after, rest = ".current" ++ after ∧
        headIs continuesName after = false ∧
          readName refs before name rest = (name ++ ".current", after) := by
  rw [readName]
  split
  next href =>
    rw [Bool.and_eq_true, List.contains_iff_mem, Bool.not_eq_true'] at href
    split
    next after hafter =>
      obtain ⟨hrest, hend⟩ := afterCurrent?_eq_some.mp hafter
      exact .inr ⟨href.1, href.2, after, hrest, hend, rfl⟩
    next => exact .inl rfl
  next => exact .inl rfl

theorem readName_append (refs : List Text) (before name rest : Text) :
    (readName refs before name rest).1 ++ (readName refs before name rest).2 = name ++ rest := by
  rcases readName_cases refs before name rest with h | ⟨_, _, after, rfl, _, h⟩
  · rw [h]
  · rw [h, List.append_assoc]

theorem readName_length (refs : List Text) (before name rest : Text) :
    (readName refs before name rest).2.length ≤ rest.length := by
  rcases readName_cases refs before name rest with h | ⟨_, _, after, rfl, _, h⟩
  · rw [h]
  · rw [h, List.length_append]
    exact Nat.le_add_left _ _

/-- One pass over a plain run; `before` is what has been read, nearest character first. -/
def renameRun (lead : Text) (refs : List Text) (fields : List (Text × Text)) (before : Text) :
    Text → Text
  | [] => []
  | c :: cs =>
    if continuesName c then
      writtenName lead fields before (c :: cs.takeWhile continuesName)
          (readName refs before (c :: cs.takeWhile continuesName) (cs.dropWhile continuesName)).2 ++
        renameRun lead refs fields
          ((readName refs before (c :: cs.takeWhile continuesName)
            (cs.dropWhile continuesName)).1.reverse ++ before)
          (readName refs before (c :: cs.takeWhile continuesName) (cs.dropWhile continuesName)).2
    else c :: renameRun lead refs fields (c :: before) cs
termination_by cs => cs.length
decreasing_by
  · have hrest := readName_length refs before (c :: cs.takeWhile continuesName)
      (cs.dropWhile continuesName)
    have hlen := dropWhile_length_le (p := continuesName) cs
    simp only [List.length_cons]
    omega
  · simp only [List.length_cons]
    omega

/-- A literal loses `.current` behind a ref, and a plain run has its refs renamed. -/
def Segment.renamed (lead : Text) (refs : List Text) (fields : List (Text × Text)) : Segment → Segment
  | .literal text => .literal (renameRun [] refs [] [] text)
  | .plain text => .plain (renameRun lead refs fields [] text)

/-- The refs of a snippet renamed at once. -/
def renameRefs (lead : Text) (fields : List (Text × Text)) (code : Text) : Text :=
  (segments code).flatMap fun s => (s.renamed lead (Entries.keys fields) fields).text

section Run

variable {lead : Text} {refs : List Text} {fields : List (Text × Text)}

theorem renameRun_nil (before : Text) : renameRun lead refs fields before [] = [] := by
  rw [renameRun]

theorem renameRun_other (before : Text) {c : CodePoint} (hc : continuesName c = false) (cs : Text) :
    renameRun lead refs fields before (c :: cs) = c :: renameRun lead refs fields (c :: before) cs := by
  rw [renameRun, if_neg (by simp [hc])]

theorem renameRun_name (before : Text) {name rest : Text} (hname : IsName name)
    (hrest : headIs continuesName rest = false) :
    renameRun lead refs fields before (name ++ rest) =
      writtenName lead fields before name (readName refs before name rest).2 ++
        renameRun lead refs fields ((readName refs before name rest).1.reverse ++ before)
          (readName refs before name rest).2 := by
  obtain ⟨c, cs, rfl⟩ := List.exists_cons_of_ne_nil hname.1
  have hc := hname.2 c List.mem_cons_self
  have hcs : ∀ d ∈ cs, continuesName d = true := fun d hd => hname.2 d (List.mem_cons_of_mem c hd)
  rw [List.cons_append, renameRun, if_pos hc, takeWhile_run hcs hrest, dropWhile_run hcs hrest]

/-- A member is passed over. -/
theorem renameRun_member (before : Text) {name rest : Text} (hname : IsName name)
    (hrest : headIs continuesName rest = false) (hpoint : headIs (· == .char '.') before = true) :
    renameRun lead refs fields before (name ++ rest) =
      name ++ renameRun lead refs fields (name.reverse ++ before) rest := by
  have hread : readName refs before name rest = (name, rest) := by simp [readName, hpoint]
  rw [renameRun_name before hname hrest, hread, writtenName, if_pos hpoint]

theorem headIs_renameRun (before : Text) {s : Text} (h : headIs continuesName s = false) :
    headIs continuesName (renameRun lead refs fields before s) = false := by
  cases s with
  | nil => rw [renameRun_nil]; rfl
  | cons c cs => rw [renameRun_other before h]; exact h

theorem headIs_readName {before name rest : Text} (hrest : headIs continuesName rest = false) :
    headIs continuesName (readName refs before name rest).2 = false := by
  rcases readName_cases refs before name rest with h | ⟨_, _, after, _, hafter, h⟩
  · rw [h]
    exact hrest
  · rw [h]
    exact hafter

/-- Induction over the names of a text as they are read, and the characters between them. -/
theorem readInduction (refs : List Text) {motive : Text → Text → Prop}
    (nil : ∀ before, motive before [])
    (other : ∀ before c cs, continuesName c = false → motive (c :: before) cs → motive before (c :: cs))
    (name : ∀ before name rest, IsName name → headIs continuesName rest = false →
      motive ((readName refs before name rest).1.reverse ++ before) (readName refs before name rest).2 →
        motive before (name ++ rest)) (before s : Text) : motive before s := by
  match s with
  | [] => exact nil before
  | c :: cs =>
    by_cases hc : continuesName c = true
    · have hrest := readName_length refs before (c :: cs.takeWhile continuesName)
        (cs.dropWhile continuesName)
      have hlen := dropWhile_length_le (p := continuesName) cs
      rw [cons_eq_name_append]
      exact name _ _ _ (isName_takeWhile hc cs) (headIs_dropWhile continuesName cs)
        (readInduction refs nil other name _ _)
    · exact other before c cs (by simpa using hc) (readInduction refs nil other name _ _)
termination_by s.length

theorem isName_current : IsName (ofString "current") := ⟨by decide, by decide⟩

/-- `.current` is a member, so it stays where it is not read with a ref. -/
theorem renameRun_current (before : Text) {after : Text} (hafter : headIs continuesName after = false) :
    renameRun lead refs fields before (".current" ++ after) =
      ".current" ++ renameRun lead refs fields ((ofString ".current").reverse ++ before) after := by
  have hpoint : continuesName (.char '.') = false := rfl
  have hmember : renameRun lead refs fields (.char '.' :: before) (ofString "current" ++ after) = _ :=
    renameRun_member _ isName_current hafter rfl
  change renameRun lead refs fields before (.char '.' :: (ofString "current" ++ after)) = _
  rw [renameRun_other before hpoint, hmember]
  rfl

theorem afterCurrent?_renameRun (before : Text) {rest : Text} (hrest : headIs continuesName rest = false) :
    afterCurrent? (renameRun lead refs fields before rest) = (afterCurrent? rest).map
      (renameRun lead refs fields ((ofString ".current").reverse ++ before)) := by
  cases hcurrent : afterCurrent? rest with
  | some after =>
    obtain ⟨rfl, hafter⟩ := afterCurrent?_eq_some.mp hcurrent
    rw [renameRun_current before hafter]
    exact afterCurrent?_eq_some.mpr ⟨rfl, headIs_renameRun _ hafter⟩
  | none =>
    rw [Option.map_none]
    by_contra hsome
    obtain ⟨after, hafter⟩ := Option.ne_none_iff_exists'.mp hsome
    obtain ⟨hwritten, hend⟩ := afterCurrent?_eq_some.mp hafter
    -- the point is copied, and so is the member behind it
    cases rest with
    | nil =>
      rw [renameRun_nil] at hwritten
      cases hwritten
    | cons c cs =>
      have hc : continuesName c = false := hrest
      rw [renameRun_other before hc] at hwritten
      change _ = .char '.' :: (ofString "current" ++ after) at hwritten
      obtain ⟨rfl, hmember⟩ := List.cons.inj hwritten
      have hstop := headIs_dropWhile continuesName cs
      by_cases hhead : headIs continuesName cs = true
      · obtain ⟨d, ds, rfl⟩ : ∃ d ds, cs = d :: ds := by
          cases cs with
          | nil => cases hhead
          | cons d ds => exact ⟨d, ds, rfl⟩
        have hname := isName_takeWhile hhead ds
        have hend' := headIs_dropWhile continuesName ds
        rw [cons_eq_name_append d ds, renameRun_member _ hname hend' rfl] at hmember
        have hsame := congrArg (List.takeWhile continuesName) hmember
        rw [takeWhile_run hname.2 (headIs_renameRun _ hend'), takeWhile_run isName_current.2 hend] at hsame
        have hread : afterCurrent? (.char '.' :: d :: ds) = some (ds.dropWhile continuesName) := by
          rw [cons_eq_name_append d ds, hsame]
          exact afterCurrent?_eq_some.mpr ⟨rfl, hend'⟩
        rw [hread] at hcurrent
        cases hcurrent
      · have hcopied : headIs continuesName (renameRun lead refs fields (.char '.' :: before) cs) = false :=
          headIs_renameRun _ (by simpa using hhead)
        rw [hmember] at hcopied
        cases hcopied

end Run

/-- What may stand in front of a field: nothing, or the receptor of the instance. -/
def IsLead (lead : Text) : Prop := lead = [] ∨ lead = receptor "this"

/-- A ref that no field stands for, and its name no field. -/
structure IsFresh (fields : List (Text × Text)) (name : Text) : Prop where
  isName : IsName name ∧ name ≠ "this"
  notKey : name ∉ Entries.keys fields
  notField : ∀ f ∈ fields, IsName f.2 ∧ f.2 ≠ name

section Written

variable {lead name : Text} {refs : List Text} {fields : List (Text × Text)}

/-- A name is written as it is, or it is a ref that is used and written as its field. -/
theorem writtenName_cases (lead : Text) (fields : List (Text × Text)) (before name after : Text) :
    writtenName lead fields before name after = name ∨ headIs (· == .char '.') before = false ∧
      ∃ field, (name, field) ∈ fields ∧ writtenName lead fields before name after = lead ++ field := by
  rw [writtenName]
  split
  next => exact .inl rfl
  next hpoint =>
    split
    next => exact .inl rfl
    next field hfield =>
      split
      next => exact .inl rfl
      next => exact .inr ⟨by simpa using hpoint, field, Entries.mem_of_get?_eq_some hfield, rfl⟩

theorem writtenName_of_notMem (h : name ∉ Entries.keys fields) (before after : Text) :
    writtenName lead fields before name after = name := by
  rw [writtenName, Entries.get?_eq_none h]
  split <;> rfl

theorem IsLead.isJoined (h : IsLead lead) : ∀ c ∈ lead, isJoined c = true := by
  rcases h with rfl | rfl
  · exact fun c hc => absurd hc List.not_mem_nil
  · exact receptor_isJoined isName_this

/-- A name that another one begins with does not occur there. -/
theorem occursAt?_otherName {tail first before rest : Text} (hname : IsName name) (hfirst : IsName first)
    (htail : headIs continuesName tail = false) (hrest : headIs continuesName rest = false)
    (hne : name ≠ first) : occursAt? (name ++ tail) before (first ++ rest) = none := by
  cases hoccurs : occursAt? (name ++ tail) before (first ++ rest) with
  | none => rfl
  | some after =>
    obtain ⟨hsplit, hafter⟩ := of_occursAt? hoccurs
    have hend : headIs continuesName (tail ++ after) = false := by
      cases tail with
      | nil => exact hafter
      | cons _ _ => exact htail
    have hwords := congrArg (List.takeWhile continuesName) hsplit
    rw [List.append_assoc, takeWhile_run hfirst.2 hrest, takeWhile_run hname.2 hend] at hwords
    exact absurd hwords.symm hne

/-- A pass for another name goes over what is written for a ref. -/
theorem substituteFrom_written {tail field out rest : Text} (written : Text → Text → Text)
    (hlead : IsLead lead) (hname : IsName name ∧ name ≠ "this") (htail : headIs continuesName tail = false)
    (hfield : IsName field) (hne : field ≠ name) (hrest : headIs continuesName rest = false) :
    substituteFrom (name ++ tail) written 0 out (lead ++ field ++ rest) =
      lead ++ field ++ substituteFrom (name ++ tail) written 0 ((lead ++ field).reverse ++ out) rest := by
  have hhead : headIs continuesName (name ++ tail) = true := by
    obtain ⟨c, cs, rfl⟩ := List.exists_cons_of_ne_nil hname.1.1
    exact hname.1.head
  rcases hlead with rfl | rfl
  · exact substituteFrom_passed written hfield
      (occursAt?_otherName hname.1 hfield htail hrest (Ne.symm hne))
  · have hpoint : continuesName (.char '.') = false := rfl
    have hsplit : ∀ t : Text, receptor "this" ++ field ++ t = ofString "this" ++ .char '.' :: (field ++ t) := by
      simp [receptor]
    have hthis : occursAt? (name ++ tail) out (ofString "this" ++ .char '.' :: (field ++ rest)) = none :=
      occursAt?_otherName hname.1 isName_this htail rfl hname.2
    rw [hsplit, hsplit, substituteFrom_passed written isName_this hthis,
      substituteFrom_of_none _ (occursAt?_other hhead hpoint), substituteFrom_joined written hfield.isJoined rfl]
    simp [receptor]

/-- A pass for a name goes over what another name is written as. -/
theorem substituteFrom_writtenName {tail first out rest : Text} (before after : Text)
    (written : Text → Text → Text) (hlead : IsLead lead) (hfresh : IsFresh fields name)
    (htail : headIs continuesName tail = false) (hfirst : IsName first)
    (hrest : headIs continuesName rest = false)
    (hmiss : occursAt? (name ++ tail) out (first ++ rest) = none) :
    substituteFrom (name ++ tail) written 0 out (writtenName lead fields before first after ++ rest) =
      writtenName lead fields before first after ++ substituteFrom (name ++ tail) written 0
        ((writtenName lead fields before first after).reverse ++ out) rest := by
  rcases writtenName_cases lead fields before first after with hwritten | ⟨_, field, hfield, hwritten⟩
  · rw [hwritten]
    exact substituteFrom_passed written hfirst hmiss
  · obtain ⟨hisName, hne⟩ : IsName field ∧ field ≠ name := hfresh.notField _ hfield
    rw [hwritten]
    exact substituteFrom_written written hlead hfresh.isName htail hisName hne hrest

/-- A name is missed by the pass for it behind a point, and by the pass for another one. -/
theorem occursAt?_missed {tail first out rest : Text} (hname : IsName name) (hfirst : IsName first)
    (htail : headIs continuesName tail = false) (hrest : headIs continuesName rest = false)
    (h : headIs isJoined out = true ∨ first ≠ name) :
    occursAt? (name ++ tail) out (first ++ rest) = none := by
  rcases h with hjoined | hne
  · exact occursAt?_joined _ hjoined _
  · exact occursAt?_otherName hname hfirst htail hrest (Ne.symm hne)

end Written

section Cut

variable {lead name : Text} {refs : List Text} {fields : List (Text × Text)}

theorem readName_other {first before : Text}
    (h : headIs (· == .char '.') before = true ∨ first ≠ name) (rest : Text) :
    readName (refs ++ [name]) before first rest = readName refs before first rest := by
  rcases h with hpoint | hne
  · simp [readName, hpoint]
  · simp [readName, hne]

theorem readName_of_notMem (h : name ∉ refs) (before rest : Text) :
    readName refs before name rest = (name, rest) := by
  simp [readName, h]

theorem headIs_isJoined_written {field : Text} (hfield : IsName field) (lead out : Text) :
    headIs isJoined ((lead ++ field).reverse ++ out) = true := by
  rw [List.reverse_append, List.append_assoc]
  exact headIs_isJoined_name hfield _

theorem headIs_isJoined_readName {before first rest : Text} (hfirst : IsName first) (out : Text) :
    headIs isJoined ((readName refs before first rest).1.reverse ++ out) = true := by
  rcases readName_cases refs before first rest with h | ⟨_, _, after, _, _, h⟩
  · rw [h]
    exact headIs_isJoined_name hfirst out
  · have hsplit : first ++ ofString ".current" = first ++ ofString "." ++ ofString "current" := by
      simp [ofString]
    rw [h, hsplit]
    exact headIs_isJoined_written isName_current _ out

theorem occursAt?_current {out : Text} (hout : headIs isJoined out = false) (name t : Text) :
    occursAt? (name ++ ".current") out (name ++ t) = afterCurrent? t := by
  have hafter : after? (name ++ ".current") (name ++ t) = after? ".current" t := by
    induction name with
    | nil => rfl
    | cons c cs ih => rw [List.cons_append, List.cons_append, after?, if_pos rfl, ih]
  rw [occursAt?, if_neg (by simp [hout]), hafter, afterCurrent?]
  cases after? ".current" t <;> rfl

theorem headIs_isJoined_writtenName {first : Text} (hfields : ∀ f ∈ fields, IsName f.2)
    (hfirst : IsName first) (before after out : Text) :
    headIs isJoined ((writtenName lead fields before first after).reverse ++ out) = true := by
  rcases writtenName_cases lead fields before first after with hwritten | ⟨_, field, hfield, hwritten⟩
  · rw [hwritten]
    exact headIs_isJoined_name hfirst out
  · rw [hwritten]
    exact headIs_isJoined_written (hfields _ hfield) lead out

/-- The pass that cuts a ref down to its name goes over the name as a single pass reads it. -/
theorem substituteFrom_ownName (hname : IsName name) {before rest out : Text}
    (hrest : headIs continuesName rest = false) (hbefore : headIs (· == .char '.') before = false)
    (hout : headIs isJoined out = false) :
    substituteFrom (name ++ ".current") (fun _ _ => name) 0 out
        (name ++ renameRun lead refs fields (name.reverse ++ before) rest) =
      name ++ substituteFrom (name ++ ".current") (fun _ _ => name) 0
        ((readName (refs ++ [name]) before name rest).1.reverse ++ out)
        (renameRun lead refs fields ((readName (refs ++ [name]) before name rest).1.reverse ++ before)
          (readName (refs ++ [name]) before name rest).2) := by
  have hoccurs := occursAt?_current hout name (renameRun lead refs fields (name.reverse ++ before) rest)
  rw [afterCurrent?_renameRun _ hrest] at hoccurs
  rw [readName, if_pos (by simp [hbefore])]
  cases hcurrent : afterCurrent? rest with
  | some after =>
    obtain ⟨rfl, hafter⟩ := afterCurrent?_eq_some.mp hcurrent
    simp only [hcurrent, Option.map_some] at hoccurs ⊢
    have hbehind : ∀ t : Text, (name ++ ofString ".current").reverse ++ t =
        (ofString ".current").reverse ++ (name.reverse ++ t) := by simp
    rw [renameRun_current _ hafter, ← List.append_assoc] at hoccurs ⊢
    rw [substituteFrom_some (joinsWords_current hname).ne_nil _ hoccurs, hbehind, hbehind]
  | none =>
    simp only [hcurrent, Option.map_none] at hoccurs ⊢
    exact substituteFrom_passed _ hname hoccurs

/-- The pass that cuts one more ref down to its name, over what the passes before it left, writes
    what a single pass writes that reads this ref too. -/
theorem substituteFrom_cut (hlead : IsLead lead) (hfresh : IsFresh fields name) (hnew : name ∉ refs)
    (before s out : Text) (hjoined : headIs isJoined out = headIs isJoined before) (hcut : Apart before s) :
    substituteFrom (name ++ ".current") (fun _ _ => name) 0 out (renameRun lead refs fields before s) =
      renameRun lead (refs ++ [name]) fields before s := by
  have hname := hfresh.isName.1
  have hjoins := joinsWords_current hname
  induction before, s using readInduction (refs ++ [name]) generalizing out with
  | nil before => rw [renameRun_nil, renameRun_nil, substituteFrom_nil _ hjoins.head]
  | other before c cs hc ih =>
    rw [renameRun_other before hc, renameRun_other before hc,
      substituteFrom_of_none _ (occursAt?_other hjoins.head hc), ih (c :: out) rfl (.inl hc)]
  | name before first rest hfirst hrest ih =>
    have hpoint := hjoined.trans (Settled.headIs_isJoined (hfirst.start hcut))
    rw [renameRun_name before hfirst hrest, renameRun_name before hfirst hrest]
    by_cases hown : first = name ∧ headIs (· == .char '.') before = false
    · obtain ⟨rfl, hbefore⟩ := hown
      rw [readName_of_notMem hnew, writtenName_of_notMem hfresh.notKey, writtenName_of_notMem hfresh.notKey,
        substituteFrom_ownName hname hrest hbefore (hpoint.trans hbefore), ih _ ?_ (.inr (headIs_readName hrest))]
      rw [headIs_isJoined_readName hfirst, headIs_isJoined_readName hfirst]
    · have hmissed : headIs (· == .char '.') before = true ∨ first ≠ name := by
        by_cases hsame : first = name
        · exact .inl (by simpa using fun hbefore => hown ⟨hsame, hbefore⟩)
        · exact .inr hsame
      have hend : headIs continuesName (readName refs before first rest).2 = false := headIs_readName hrest
      rw [readName_other hmissed] at ih ⊢
      rw [substituteFrom_writtenName _ _ _ hlead hfresh rfl hfirst (headIs_renameRun _ hend)
          (occursAt?_missed hname hfirst rfl (headIs_renameRun _ hend) (hmissed.imp_left hpoint.trans)),
        ih _ ?_ (.inr hend)]
      rw [headIs_isJoined_writtenName (fun f hf => (hfresh.notField f hf).1) hfirst,
        headIs_isJoined_readName hfirst]

end Cut

/-- Two texts, nearest character first, behind which the same is declared. -/
structure DeclareAlike (out before : Text) : Prop where
  forth : DeclaresBehind out before
  back : DeclaresBehind before out

namespace DeclareAlike

variable {out before : Text}

theorem nil : DeclareAlike [] [] := ⟨.nil, .nil⟩

theorem other {c : CodePoint} (hc : continuesName c = false) (h : DeclareAlike out before) :
    DeclareAlike (c :: out) (c :: before) := ⟨.other hc h.forth, .other hc h.back⟩

theorem name {near near' : Text} (hnear : IsName near) (hnear' : IsName near')
    (hdeclares : declares near.reverse = declares near'.reverse) (hout : headIs (·.is isWord) out = false)
    (hbefore : headIs (·.is isWord) before = false) :
    DeclareAlike (near.reverse ++ out) (near'.reverse ++ before) :=
  ⟨.name hnear hnear' (fun h => hdeclares.trans h) hout hbefore,
    .name hnear' hnear (fun h => hdeclares.symm.trans h) hbefore hout⟩

theorem isBindingPosition_eq (h : DeclareAlike out before) {after after' : Text}
    (hahead : SameAhead after' after) : isBindingPosition out after' = isBindingPosition before after :=
  Bool.eq_iff_iff.mpr ⟨h.back.isBindingPosition_of hahead.symm, h.forth.isBindingPosition_of hahead⟩

end DeclareAlike

/-- None of the refs, and none of the fields, is a word that declares the name after it. -/
structure DeclareNothing (refs : List Text) (fields : List (Text × Text)) : Prop where
  refs : ∀ r ∈ refs, declares r.reverse = false
  fields : ∀ f ∈ fields, IsName f.2 ∧ declares f.1.reverse = false ∧ declares f.2.reverse = false

section Field

variable {lead name field : Text} {refs : List Text} {fields : List (Text × Text)}

/-- Behind a name as it is written the same is declared as behind the name as it is read. -/
theorem DeclareAlike.read {out before first : Text} (h : DeclareAlike out before)
    (hlead : IsLead lead) (hnothing : DeclareNothing refs fields) (hfirst : IsName first)
    (hstart : headIs continuesName before = false) (rest : Text) :
    DeclareAlike
      ((writtenName lead fields before first (readName refs before first rest).2).reverse ++ out)
      ((readName refs before first rest).1.reverse ++ before) := by
  have hout : headIs continuesName out = false := (h.forth.headIs_eq fun _ => id).trans hstart
  have hled : headIs (·.is isWord) (lead.reverse ++ out) = false := by
    rcases hlead with rfl | rfl
    · exact headIs_isWord hout
    · rfl
  have hcurrent : (first ++ ofString ".current").reverse ++ before =
      (ofString "current").reverse ++ .char '.' :: (first.reverse ++ before) := by simp [ofString]
  have hquiet : declares (ofString "current").reverse = false := by decide
  rcases writtenName_cases lead fields before first (readName refs before first rest).2 with
    hwritten | ⟨_, field, hfield, hwritten⟩
  · rw [hwritten]
    rcases readName_cases refs before first rest with hread | ⟨href, _, after, _, _, hread⟩
    · rw [hread]
      exact .name hfirst hfirst rfl (headIs_isWord hout) (headIs_isWord hstart)
    · rw [hread, hcurrent]
      exact .name hfirst isName_current ((hnothing.refs _ href).trans hquiet.symm) (headIs_isWord hout) rfl
  · obtain ⟨hisName, hfirstQuiet, hfieldQuiet⟩ := hnothing.fields _ hfield
    rw [hwritten, List.reverse_append, List.append_assoc]
    rcases readName_cases refs before first rest with hread | ⟨_, _, after, _, _, hread⟩
    · rw [hread]
      exact .name hisName hfirst (hfieldQuiet.trans hfirstQuiet.symm) hled (headIs_isWord hstart)
    · rw [hread, hcurrent]
      exact .name hisName isName_current (hfieldQuiet.trans hquiet.symm) hled rfl

theorem readName_joined (refs : List Text) (before rest : Text) {first : Text} (hfirst : IsName first) :
    (readName refs before first rest).1 ≠ [] ∧
      ∀ c ∈ (readName refs before first rest).1, isJoined c = true := by
  rcases readName_cases refs before first rest with hread | ⟨_, _, after, _, _, hread⟩
  · rw [hread]
    exact ⟨hfirst.1, hfirst.isJoined⟩
  · rw [hread]
    exact ⟨by simp [hfirst.1], (joinsWords_current hfirst).pat⟩

theorem writtenName_joined {first : Text} (hlead : IsLead lead) (hfields : ∀ f ∈ fields, IsName f.2)
    (hfirst : IsName first) (before after : Text) :
    writtenName lead fields before first after ≠ [] ∧
      ∀ c ∈ writtenName lead fields before first after, isJoined c = true := by
  rcases writtenName_cases lead fields before first after with hwritten | ⟨_, field, hfield, hwritten⟩
  · rw [hwritten]
    exact ⟨hfirst.1, hfirst.isJoined⟩
  · have hisName : IsName field := hfields _ hfield
    rw [hwritten]
    exact ⟨by simp [hisName.1], List.forall_mem_append.mpr ⟨hlead.isJoined, hisName.isJoined⟩⟩

theorem sameAhead_renameRun (hlead : IsLead lead) (hfields : ∀ f ∈ fields, IsName f.2) (refs : List Text)
    (before s : Text) :
    SameAhead (renameRun lead refs fields before s) s := by
  induction before, s using readInduction refs with
  | nil before => rw [renameRun_nil]; exact .nil
  | other before c cs hc ih => rw [renameRun_other before hc]; exact .keep c ih
  | name before first rest hfirst hrest ih =>
    obtain ⟨hread, hreadJoined⟩ := readName_joined refs before rest hfirst
    obtain ⟨hwritten, hwrittenJoined⟩ := writtenName_joined hlead hfields hfirst before
      (readName refs before first rest).2
    rw [renameRun_name before hfirst hrest, ← readName_append refs before first rest]
    exact .word hwritten hread hwrittenJoined hreadJoined ih

theorem writtenName_other {first : Text} (hne : first ≠ name) (before after : Text) :
    writtenName lead (fields ++ [(name, field)]) before first after =
      writtenName lead fields before first after := by
  have hnone : Entries.get? [(name, field)] first = none := by
    rw [Entries.get?, if_neg (by simpa using Ne.symm hne)]
    rfl
  rw [writtenName, writtenName, Entries.get?_append, hnone, Option.or_none]

theorem writtenName_new (h : name ∉ Entries.keys fields) {before : Text}
    (hpoint : headIs (· == .char '.') before = false) (after : Text) :
    writtenName lead (fields ++ [(name, field)]) before name after =
      writtenUnlessDeclared (lead ++ field) name before after := by
  have hfound : Entries.get? (fields ++ [(name, field)]) name = some field := by
    rw [Entries.get?_append, Entries.get?_eq_none h, Option.none_or, Entries.get?, if_pos BEq.rfl]
  rw [writtenName, if_neg (by simp [hpoint]), hfound, writtenUnlessDeclared]

/-- The pass that writes one more ref as its field, over what the passes before it left, writes what
    a single pass writes that knows this field too. -/
theorem substituteFrom_field (hlead : IsLead lead) (hfresh : IsFresh fields name)
    (hnothing : DeclareNothing refs fields) (before s out : Text) (halike : DeclareAlike out before)
    (hcut : Apart before s) :
    substituteFrom name (writtenUnlessDeclared (lead ++ field) name) 0 out
        (renameRun lead refs fields before s) =
      renameRun lead refs (fields ++ [(name, field)]) before s := by
  have hname := hfresh.isName.1
  induction before, s using readInduction refs generalizing out with
  | nil before => rw [renameRun_nil, renameRun_nil, substituteFrom_nil _ hname.head]
  | other before c cs hc ih =>
    rw [renameRun_other before hc, renameRun_other before hc,
      substituteFrom_of_none _ (occursAt?_other hname.head hc), ih _ (halike.other hc) (.inl hc)]
  | name before first rest hfirst hrest ih =>
    have hstart := hfirst.start hcut
    have hread := halike.read hlead hnothing hfirst hstart rest
    have hend : headIs continuesName (readName refs before first rest).2 = false := headIs_readName hrest
    have hstop : headIs continuesName (renameRun lead refs fields
        ((readName refs before first rest).1.reverse ++ before) (readName refs before first rest).2) = false :=
      headIs_renameRun _ hend
    have hout : headIs isJoined out = headIs (· == .char '.') before :=
      (halike.forth.headIs_eq fun _ => isJoined_of_continuesName).trans (Settled.headIs_isJoined hstart)
    rw [renameRun_name before hfirst hrest, renameRun_name before hfirst hrest]
    by_cases hhit : first = name ∧ headIs (· == .char '.') before = false
    · obtain ⟨rfl, hpoint⟩ := hhit
      have hposition := halike.isBindingPosition_eq (sameAhead_renameRun hlead
        (fun f hf => (hnothing.fields f hf).1) refs ((readName refs before first rest).1.reverse ++ before)
        (readName refs before first rest).2)
      rw [writtenName_of_notMem hfresh.notKey] at hread ⊢
      rw [substituteFrom_sameName _ hname hstop (hout.trans hpoint), ih _ hread (.inr hend),
        writtenName_new hfresh.notKey hpoint, writtenUnlessDeclared, writtenUnlessDeclared, hposition]
    · have hmiss : headIs isJoined out = true ∨ first ≠ name := by
        by_cases hsame : first = name
        · exact .inl (hout.trans (by simpa using fun hpoint => hhit ⟨hsame, hpoint⟩))
        · exact .inr hsame
      have hsame : ∀ after, writtenName lead (fields ++ [(name, field)]) before first after =
          writtenName lead fields before first after := by
        intro after
        rcases hmiss with hjoined | hne
        · have hpoint := hout.symm.trans hjoined
          rw [writtenName, writtenName, if_pos hpoint, if_pos hpoint]
        · exact writtenName_other hne before after
      have htail : headIs continuesName ([] : Text) = false := rfl
      have hpassed := substituteFrom_writtenName before (readName refs before first rest).2
        (writtenUnlessDeclared (lead ++ field) name) hlead hfresh htail hfirst hstop
        (occursAt?_missed hname hfirst htail hstop hmiss)
      rw [List.append_nil] at hpassed
      rw [hsame, hpassed, ih _ hread (.inr hend)]

end Field

/-- Refs that can be relocated one after the other: identifiers that declare nothing, each with a
    field of its own that is the name of no other ref. -/
structure RefsApart (fields : List (Text × Text)) : Prop where
  isName : ∀ f ∈ fields, IsName f.1 ∧ f.1 ≠ "this"
  written : ∀ f ∈ fields, f.2 = f.1 ∨ f.2 = "_" ++ f.1
  quiet : ∀ f ∈ fields, declares f.1.reverse = false
  nodup : (Entries.keys fields).Nodup
  apart : ∀ f ∈ fields, f.2 ∈ Entries.keys fields → f.2 = f.1

/-- A low line in front of a name makes it declare nothing new. -/
theorem declares_of_lowLine {name : Text} (h : declares (ofString "_" ++ name).reverse = true) :
    declares name.reverse = true := by
  have hsplit : (ofString "_" ++ name).reverse = name.reverse ++ [.char '_'] := by simp [ofString]
  rw [hsplit] at h
  by_cases hword : ∀ c ∈ name.reverse, c.is isWord = true
  · have hall : (name.reverse ++ [CodePoint.char '_']).takeWhile (·.is isWord) =
        name.reverse ++ [.char '_'] :=
      List.takeWhile_eq_self_iff.mpr (List.forall_mem_append.mpr ⟨hword, by decide⟩)
    rw [declares, hall, List.any_eq_true] at h
    obtain ⟨w, hw, hsame⟩ := h
    have hlow : w = .char '_' :: name := by
      have := congrArg List.reverse (beq_iff_eq.mp hsame)
      simpa using this.symm
    have hnone : ∀ v ∈ declarationWords, v.head? ≠ some (.char '_') := by decide
    exact absurd (by rw [hlow]; rfl) (hnone w hw)
  · have hshort : (name.reverse.takeWhile (·.is isWord)).length ≠ name.reverse.length := by
      intro hlen
      exact hword (List.takeWhile_eq_self_iff.mp
        ((List.takeWhile_prefix (p := fun c : CodePoint => c.is isWord)).eq_of_length hlen))
    rwa [declares, List.takeWhile_append, if_neg hshort] at h

namespace RefsApart

variable {fields done todo : List (Text × Text)} {name field : Text}

theorem field_isName (h : RefsApart fields) : ∀ f ∈ fields, IsName f.2 := by
  intro f hf
  have hname := (h.isName f hf).1
  rcases h.written f hf with hsame | hled
  · rw [hsame]
    exact hname
  · rw [hled]
    exact ⟨by simp [hname.1], List.forall_mem_append.mpr ⟨by decide, hname.2⟩⟩

theorem field_quiet (h : RefsApart fields) : ∀ f ∈ fields, declares f.2.reverse = false := by
  intro f hf
  rcases h.written f hf with hsame | hled
  · rw [hsame]
    exact h.quiet f hf
  · rw [hled]
    exact Bool.eq_false_iff.mpr fun hdeclares =>
      absurd (declares_of_lowLine hdeclares) (by simp [h.quiet f hf])

theorem notKey (h : RefsApart (done ++ (name, field) :: todo)) : name ∉ Entries.keys done := by
  have hkeys := h.nodup
  rw [Entries.keys, List.map_append, List.map_cons] at hkeys
  exact fun hname => (List.nodup_append.mp hkeys).2.2 name hname name List.mem_cons_self rfl

theorem isFresh (h : RefsApart (done ++ (name, field) :: todo)) : IsFresh done name := by
  have hmem : (name, field) ∈ done ++ (name, field) :: todo := by simp
  have hname : name ∈ Entries.keys (done ++ (name, field) :: todo) := List.mem_map_of_mem hmem
  refine ⟨h.isName _ hmem, h.notKey, fun f hf => ?_⟩
  have hf' : f ∈ done ++ (name, field) :: todo := List.mem_append_left _ hf
  refine ⟨h.field_isName f hf', fun hsame => h.notKey ?_⟩
  rw [← hsame, h.apart f hf' (hsame ▸ hname)]
  exact List.mem_map_of_mem hf

theorem declareNothing (h : RefsApart (done ++ (name, field) :: todo)) :
    DeclareNothing (Entries.keys done ++ [name]) done := by
  constructor
  · refine List.forall_mem_append.mpr ⟨fun r hr => ?_, List.forall_mem_singleton.mpr ?_⟩
    · obtain ⟨f, hf, rfl⟩ := List.mem_map.mp hr
      exact h.quiet f (List.mem_append_left _ hf)
    · exact h.quiet (name, field) (by simp)
  · intro f hf
    have hf' : f ∈ done ++ (name, field) :: todo := List.mem_append_left _ hf
    exact ⟨h.field_isName f hf', h.quiet f hf', h.field_quiet f hf'⟩

end RefsApart

section Congruence

variable {lead : Text} {refs refs' : List Text} {fields fields' : List (Text × Text)}

theorem readName_congr (h : ∀ n, n ∈ refs ↔ n ∈ refs') (before name rest : Text) :
    readName refs before name rest = readName refs' before name rest := by
  have hmem : refs.contains name = refs'.contains name := by
    rw [Bool.eq_iff_iff, List.contains_iff_mem, List.contains_iff_mem, h name]
  rw [readName, readName, hmem]

/-- Only which refs there are counts, and which field each of them has. -/
theorem renameRun_congr (hrefs : ∀ n, n ∈ refs ↔ n ∈ refs')
    (hfields : ∀ n, Entries.get? fields n = Entries.get? fields' n) (before s : Text) :
    renameRun lead refs fields before s = renameRun lead refs' fields' before s := by
  induction before, s using readInduction refs with
  | nil before => rw [renameRun_nil, renameRun_nil]
  | other before c cs hc ih => rw [renameRun_other before hc, renameRun_other before hc, ih]
  | name before name rest hname hrest ih =>
    rw [renameRun_name before hname hrest, renameRun_name before hname hrest, ih,
      ← readName_congr hrefs, writtenName, writtenName, hfields]

theorem renameRefs_congr (hkeys : (Entries.keys fields).Nodup) (hkeys' : (Entries.keys fields').Nodup)
    (h : ∀ f, f ∈ fields ↔ f ∈ fields') (lead : Text) : renameRefs lead fields = renameRefs lead fields' := by
  have hrefs : ∀ n, n ∈ Entries.keys fields ↔ n ∈ Entries.keys fields' := by
    intro n
    rw [Entries.keys, Entries.keys, List.mem_map, List.mem_map]
    exact exists_congr fun f => and_congr_left' (h f)
  funext code
  rw [renameRefs, renameRefs]
  refine List.flatMap_congr fun s _ => ?_
  cases s with
  | literal text => exact renameRun_congr hrefs (fun _ => rfl) [] text
  | plain text => exact renameRun_congr hrefs (Entries.get?_congr hkeys hkeys' h) [] text

end Congruence

section Relocation

variable {lead code : Text} {done todo : List (Text × Text)} {name field : Text}

theorem renameRun_noRefs (lead before s : Text) : renameRun lead [] [] before s = s := by
  induction before, s using readInduction [] with
  | nil before => rw [renameRun_nil]
  | other before c cs hc ih => rw [renameRun_other before hc, ih]
  | name before first rest hfirst hrest ih =>
    have hread : readName [] before first rest = (first, rest) := readName_of_notMem List.not_mem_nil before rest
    rw [hread] at ih
    rw [renameRun_name before hfirst hrest, hread, writtenName_of_notMem List.not_mem_nil, ih]

theorem segments_cut (hlead : IsLead lead) (h : RefsApart (done ++ (name, field) :: todo)) {s : Text}
    (hs : segments s = (segments code).map (Segment.renamed lead (Entries.keys done) done)) :
    segments (substitute (name ++ ".current") (fun _ _ => name) s) =
      (segments code).map (Segment.renamed lead (Entries.keys done ++ [name]) done) := by
  have hliteral : IsFresh [] name := ⟨h.isFresh.isName, List.not_mem_nil, fun f hf => absurd hf List.not_mem_nil⟩
  rw [(joinsWords_current h.isFresh.isName.1).segments_substitute, hs, List.map_map]
  refine List.map_congr_left fun s _ => ?_
  cases s with
  | literal text =>
    exact congrArg Segment.literal
      (substituteFrom_cut (.inl rfl) hliteral h.notKey [] text [] rfl (.inl rfl))
  | plain text =>
    exact congrArg Segment.plain
      (substituteFrom_cut hlead h.isFresh h.notKey [] text [] rfl (.inl rfl))

theorem segments_field (hlead : IsLead lead) (h : RefsApart (done ++ (name, field) :: todo)) {s : Text}
    (hs : segments s = (segments code).map (Segment.renamed lead (Entries.keys done ++ [name]) done)) :
    segments (replaceOne (lead ++ field) name s) =
      (segments code).map (Segment.renamed lead (Entries.keys done ++ [name]) (done ++ [(name, field)])) := by
  have hfresh := h.isFresh
  have hisName : IsName field := h.field_isName (name, field) (by simp)
  have hplain : ∀ t : Text, (∀ c ∈ t, isJoined c = true) → ∀ c ∈ t, isNotQuote c = true :=
    fun t ht c hc => isNotQuote_of_isJoined (ht c hc)
  have hkeeps : KeepsRuns (substitute name (writtenUnlessDeclared (lead ++ field) name)) := by
    refine keepsRuns_of_rewritten (rewritten_substituteFrom name _ []) ?_
    rintro _ _ ⟨rfl, before, after, rfl⟩
    rw [writtenUnlessDeclared]
    split
    next => exact ⟨hfresh.isName.1.1, id⟩
    next => exact ⟨by simp [hisName.1], fun _ => hplain _
      (List.forall_mem_append.mpr ⟨hlead.isJoined, hisName.isJoined⟩)⟩
  have hpass := segments_mapPlain hkeeps s
  rw [hs, List.map_map] at hpass
  refine hpass.trans (List.map_congr_left fun s _ => ?_)
  cases s with
  | literal text => rfl
  | plain text =>
    exact congrArg Segment.plain
      (substituteFrom_field hlead hfresh h.declareNothing [] text [] .nil (.inl rfl))

theorem relocateEach_from (hlead : IsLead lead) (h : RefsApart (done ++ todo)) {s : Text}
    (hs : segments s = (segments code).map (Segment.renamed lead (Entries.keys done) done)) :
    relocateEach lead todo (.str s) = .ok (.str (renameRefs lead (done ++ todo) code)) := by
  induction todo generalizing done s with
  | nil =>
    rw [List.append_nil, relocateEach, renameRefs, ← flatMap_text_segments s, hs, List.flatMap_map]
  | cons f todo ih =>
    obtain ⟨name, field⟩ := f
    have hname := h.isFresh.isName.1
    have hslash : CodePoint.char '\\' ∉ name := fun hmem => absurd (hname.2 _ hmem) (by decide)
    have hsplit : done ++ (name, field) :: todo = (done ++ [(name, field)]) ++ todo := by simp
    have hkeys : Entries.keys (done ++ [(name, field)]) = Entries.keys done ++ [name] := by
      simp [Entries.keys]
    have hfirst := segments_field hlead h (segments_cut hlead h hs)
    rw [← hkeys] at hfirst
    rw [relocateEach, relocateRef_eq hslash, ok_bind, if_neg (by simpa using hname.1), hsplit]
    exact ih (hsplit ▸ h) hfirst

theorem segment_renamed_noRefs (lead : Text) : Segment.renamed lead [] [] = id := by
  funext s
  cases s <;> simp [Segment.renamed, renameRun_noRefs]

theorem renameRefs_noFields (lead code : Text) : renameRefs lead [] code = code := by
  rw [renameRefs, Entries.keys, List.map_nil, segment_renamed_noRefs]
  exact flatMap_text_segments code

/-- Relocating refs one after the other renames them at once. -/
theorem relocateEach_eq {fields : List (Text × Text)} (hlead : IsLead lead) (h : RefsApart fields)
    (code : Text) : relocateEach lead fields (.str code) = .ok (.str (renameRefs lead fields code)) := by
  refine relocateEach_from hlead (show RefsApart ([] ++ fields) from h) ?_
  rw [Entries.keys, List.map_nil, segment_renamed_noRefs, List.map_id]

end Relocation

end ElementCompiler.Snippet
