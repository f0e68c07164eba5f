import ElementCompiler.Proofs.Snippet.Strip

set_option autoImplicit false

/-!
Names that are settled in a run: wherever one of them stands as a whole and is no member, it is
declared there. Passes put receptors before words, write members in another way and cut references
short; none of these moves takes a declaration away from another name, so what one pass has settled
is settled after every later one.
-/

namespace ElementCompiler.Snippet

open Text

/-- Two texts, nearest character first, of which the first declares what stands ahead of it where the
    second does. Their nearest names may be written in different ways. -/
inductive DeclaresBehind : Text → Text → Prop where
  | nil : DeclaresBehind [] []
  | other {c : CodePoint} {out before : Text} : continuesName c = false →
      DeclaresBehind out before → DeclaresBehind (c :: out) (c :: before)
  | name {field name out before : Text} : IsName field → IsName name →
      (declares name.reverse = true → declares field.reverse = true) →
      headIs (·.is isWord) out = false → headIs (·.is isWord) before = false →
      DeclaresBehind (field.reverse ++ out) (name.reverse ++ before)

namespace DeclaresBehind

variable {out before : Text}

theorem headIs_eq (h : DeclaresBehind out before) {p : CodePoint → Bool} {b : Bool}
    (hp : ∀ c, continuesName c = true → p c = b) : headIs p out = headIs p before := by
  cases h with
  | nil => rfl
  | other _ _ => rfl
  | name hfield hname _ _ _ => rw [headIs_name hfield hp, headIs_name hname hp]

theorem isBlank_of_continuesName {c : CodePoint} (h : continuesName c = true) :
    c.is isBlank = false :=
  isBlank_of_isJoined (isJoined_of_continuesName h)

theorem dropBlank (h : DeclaresBehind out before) :
    DeclaresBehind (out.dropWhile (·.is isBlank)) (before.dropWhile (·.is isBlank)) := by
  induction h with
  | nil => exact nil
  | @other c out before hc hbehind ih =>
    by_cases hblank : c.is isBlank = true
    · simpa [hblank] using ih
    · simpa [hblank] using other hc hbehind
  | name hfield hname hdeclares hout hbefore =>
    rw [dropWhile_of_headIs (headIs_name hfield (fun _ => isBlank_of_continuesName) _),
      dropWhile_of_headIs (headIs_name hname (fun _ => isBlank_of_continuesName) _)]
    exact name hfield hname hdeclares hout hbefore

theorem all_isBlank (h : DeclaresBehind out before) :
    out.all (·.is isBlank) = before.all (·.is isBlank) := by
  have hink : ∀ {name : Text}, IsName name → ∀ rest : Text,
      (name.reverse ++ rest).all (·.is isBlank) = false := by
    intro name hname rest
    obtain ⟨c, cs, rfl⟩ := List.exists_cons_of_ne_nil hname.1
    simp [isBlank_of_continuesName (hname.2 c List.mem_cons_self)]
  induction h with
  | nil => rfl
  | other _ _ ih => rw [List.all_cons, List.all_cons, ih]
  | name hfield hname _ _ _ => rw [hink hfield, hink hname]

theorem declares_of (h : DeclaresBehind out before) (hbefore : declares before = true) :
    declares out = true := by
  cases h with
  | nil => exact hbefore
  | @other c out before hc _ =>
    have hnone : ∀ t : Text, (c :: t).takeWhile (·.is isWord) = [] := fun t =>
      List.takeWhile_cons_of_neg fun hword => by simp [continuesName_of_isWord hword] at hc
    rw [declares, hnone] at hbefore ⊢
    exact hbefore
  | name _ _ hdeclares hout hnear =>
    rw [declares, takeWhile_append_of_headIs _ hnear] at hbefore
    rw [declares, takeWhile_append_of_headIs _ hout]
    exact hdeclares hbefore

theorem endsInWord_of (h : DeclaresBehind out before)
    (hbefore : endsInWord declarationWords before = true) :
    endsInWord declarationWords out = true := by
  have hblank := h.headIs_eq fun _ => isBlank_of_continuesName
  rw [endsInWord_eq_declares, Bool.and_eq_true] at hbefore ⊢
  exact ⟨hblank.trans hbefore.1, h.dropBlank.declares_of hbefore.2⟩

/-- A whole name begins behind the one text where it begins behind the other. -/
theorem start (h : DeclaresBehind out before) {name rest : Text} (hname : IsName name)
    (hcut : Apart before (name ++ rest)) :
    headIs continuesName before = false ∧ headIs continuesName out = false := by
  have hbefore := hname.start hcut
  exact ⟨hbefore, (h.headIs_eq fun _ => id).trans hbefore⟩

/-- What is declared behind the second text and ahead of one that differs in its words is declared
    behind the first. -/
theorem isBindingPosition_of (h : DeclaresBehind out before) {after after' : Text}
    (hahead : SameAhead after' after) (hbinding : isBindingPosition before after = true) :
    isBindingPosition out after' = true := by
  have htail : isKeyTail out = isKeyTail before := by
    refine h.dropBlank.headIs_eq (b := false) fun c hc => ?_
    rw [Bool.or_eq_false_iff, beq_eq_false_iff_ne, beq_eq_false_iff_ne]
    exact ⟨by rintro rfl; revert hc; decide, by rintro rfl; revert hc; decide⟩
  rw [isBindingPosition, Bool.or_eq_true, Bool.or_eq_true] at hbinding ⊢
  rcases hbinding with (hword | hmethod) | hkey
  · exact Or.inl (Or.inl (h.endsInWord_of hword))
  · exact Or.inl (Or.inr (by rw [h.all_isBlank, hahead.isMethodHead_eq]; exact hmethod))
  · exact Or.inr (by rw [hahead.isKeyHead_eq, htail]; exact hkey)

end DeclaresBehind

/-- Each of the names is declared wherever it occurs in the text. -/
def Settled (names : List Text) (before s : Text) : Prop :=
  ∀ near rest name after, s = near ++ rest → name ∈ names →
    occursAt? name (near.reverse ++ before) rest = some after →
    isBindingPosition (near.reverse ++ before) after = true

namespace Settled

variable {names : List Text} {before : Text}

theorem nil (hnames : ∀ n ∈ names, IsName n) : Settled names before [] := by
  intro near rest name after hs hname hoccurs
  obtain ⟨_, rfl⟩ := List.append_eq_nil_iff.mp hs.symm
  obtain ⟨d, ds, rfl⟩ := List.exists_cons_of_ne_nil (hnames name hname).1
  simp [occursAt?, after?] at hoccurs

theorem tail {near rest : Text} (h : Settled names before (near ++ rest)) :
    Settled names (near.reverse ++ before) rest := by
  intro near' rest' name after hrest hname hoccurs
  have hnear := h (near ++ near') rest' name after (by rw [hrest, List.append_assoc]) hname
  rw [List.reverse_append, List.append_assoc] at hnear
  exact hnear hoccurs

theorem uncons {c : CodePoint} {cs : Text} (h : Settled names before (c :: cs)) :
    Settled names (c :: before) cs := by
  have hsplit : Settled names before ([c] ++ cs) := h
  exact hsplit.tail

theorem cons {c : CodePoint} {cs : Text}
    (hhere : ∀ name ∈ names, ∀ after, occursAt? name before (c :: cs) = some after →
      isBindingPosition before after = true) (h : Settled names (c :: before) cs) :
    Settled names before (c :: cs) := by
  intro near rest name after hs hname hoccurs
  cases near with
  | nil =>
    rw [List.nil_append] at hs
    exact hhere name hname after (hs ▸ hoccurs)
  | cons d ds =>
    rw [List.cons_append, List.cons.injEq] at hs
    obtain ⟨rfl, hcs⟩ := hs
    have hbehind := h ds rest name after hcs hname
    simp only [List.reverse_cons, List.append_assoc, List.singleton_append] at hoccurs ⊢
    exact hbehind hoccurs

theorem other (hnames : ∀ n ∈ names, IsName n) {c : CodePoint} (hc : continuesName c = false)
    {cs : Text} (h : Settled names (c :: before) cs) : Settled names before (c :: cs) :=
  cons (fun name hname after hoccurs => by
    simp [occursAt?_other (hnames name hname).head hc] at hoccurs) h

theorem joined {run rest : Text} (hrun : ∀ c ∈ run, isJoined c = true)
    (hbefore : headIs isJoined before = true) (h : Settled names (run.reverse ++ before) rest) :
    Settled names before (run ++ rest) := by
  induction run generalizing before with
  | nil => exact h
  | cons c cs ih =>
    have hcs : Settled names (c :: before) (cs ++ rest) :=
      ih (fun d hd => hrun d (List.mem_cons_of_mem c hd)) (hrun c List.mem_cons_self)
        (by simpa using h)
    exact cons (fun name _ after hoccurs => by simp [occursAt?_joined name hbefore] at hoccurs) hcs

/-- A name is joined to what stands behind it only by a point, unless it is cut in two. -/
theorem headIs_isJoined {s : Text} (h : headIs continuesName s = false) :
    headIs isJoined s = headIs (· == .char '.') s := by
  cases s with
  | nil => rfl
  | cons c cs =>
    have hc : continuesName c = false := h
    simp [headIs, isJoined, hc]

section Name

variable {first after : Text}

theorem name (hnames : ∀ n ∈ names, IsName n) (hfirst : IsName first)
    (hafter : headIs continuesName after = false) (hstart : headIs continuesName before = false)
    (hfree : takesReceptor names before first after = false)
    (h : Settled names (first.reverse ++ before) after) : Settled names before (first ++ after) := by
  obtain ⟨c, cs, rfl⟩ := List.exists_cons_of_ne_nil hfirst.1
  have hcs : Settled names (c :: before) (cs ++ after) :=
    joined (fun d hd => hfirst.isJoined d (List.mem_cons_of_mem c hd))
      (hfirst.isJoined c List.mem_cons_self) (by simpa using h)
  refine cons (fun other hother rest hoccurs => ?_) hcs
  by_cases hpoint : headIs isJoined before = true
  · simp [occursAt?_joined other hpoint] at hoccurs
  · have hpoint : headIs isJoined before = false := by simpa using hpoint
    have hwhole := occursAt?_name (hnames other hother) hfirst hafter hpoint
    change occursAt? other before (c :: cs ++ after) = some rest at hoccurs
    rw [hwhole] at hoccurs
    split at hoccurs
    next hsame =>
      obtain rfl := Option.some.inj hoccurs
      rw [headIs_isJoined hstart] at hpoint
      simpa [takesReceptor, ← hsame, hother, hpoint] using hfree
    next => cases hoccurs

theorem takesReceptor_eq (hfirst : IsName first) (hafter : headIs continuesName after = false)
    (hstart : headIs continuesName before = false) (h : Settled names before (first ++ after)) :
    takesReceptor names before first after = false := by
  by_cases hmem : first ∈ names ∧ headIs isJoined before = false
  · have hoccurs := occursAt?_name hfirst hfirst hafter hmem.2
    rw [if_pos rfl] at hoccurs
    have hbinding : isBindingPosition before after = true := h [] _ first after rfl hmem.1 hoccurs
    rw [takesReceptor, hbinding]
    simp
  · rw [headIs_isJoined hstart] at hmem
    rw [takesReceptor]
    by_cases hname : first ∈ names <;> simp_all

end Name

end Settled

/-- A pass over a run, from left to right: words are led by others, members are written in another
    way, and references through a name are cut down to it. Every other name stays, and of the fresh
    names only those stay that are declared. -/
inductive Moved (fresh names : List Text) : Text → Text → Text → Prop where
  | nil {before : Text} : Moved fresh names before [] []
  | other {before s t : Text} {c : CodePoint} : continuesName c = false →
      Moved fresh names (c :: before) s t → Moved fresh names before (c :: s) (c :: t)
  | name {before name s t : Text} : IsName name → headIs continuesName s = false →
      headIs continuesName t = false → takesReceptor fresh before name s = false →
      Moved fresh names (name.reverse ++ before) s t →
      Moved fresh names before (name ++ s) (name ++ t)
  | led {before name word field s t : Text} : IsName name → headIs continuesName s = false →
      headIs continuesName t = false → IsName word → word ∉ fresh ++ names → IsName field →
      (declares name.reverse = true → declares field.reverse = true) →
      Moved fresh names (name.reverse ++ before) s t →
      Moved fresh names before (name ++ s) (receptor word ++ (field ++ t))
  | member {before group name word field s t : Text} : IsName group → IsName name →
      headIs continuesName s = false → headIs continuesName t = false → IsName word →
      word ∉ fresh ++ names → IsName field →
      (declares name.reverse = true → declares field.reverse = true) →
      Moved fresh names (name.reverse ++ .char '.' :: (group.reverse ++ before)) s t →
      Moved fresh names before (group ++ .char '.' :: (name ++ s)) (receptor word ++ (field ++ t))
  | cut {before name last s t : Text} : IsName name → IsName last → declares last.reverse = false →
      headIs continuesName s = false → headIs continuesName t = false →
      takesReceptor fresh before name (.char '.' :: (last ++ s)) = false →
      Moved fresh names (last.reverse ++ .char '.' :: (name.reverse ++ before)) s t →
      Moved fresh names before (name ++ .char '.' :: (last ++ s)) (name ++ t)

namespace Moved

variable {fresh names : List Text} {before s t : Text}

theorem sameAhead (h : Moved fresh names before s t) : SameAhead t s := by
  have hreceptor : ∀ {word field : Text}, IsName field → receptor word ++ field ≠ [] :=
    fun hfield hnone => hfield.1 (List.append_eq_nil_iff.mp hnone).2
  induction h with
  | nil => exact .nil
  | other _ _ ih => exact .keep _ ih
  | name hname _ _ _ _ ih => exact .word hname.1 hname.1 hname.isJoined hname.isJoined ih
  | led hname _ _ hword _ hfield _ _ ih =>
    rw [← List.append_assoc]
    exact .word (hreceptor hfield) hname.1 (isJoined_receptor hword hfield) hname.isJoined ih
  | @member _ group name _ _ s _ hgroup hname _ _ hword _ hfield _ _ ih =>
    have hsplit : group ++ .char '.' :: (name ++ s) = (receptor group ++ name) ++ s := by
      simp [receptor]
    rw [← List.append_assoc, hsplit]
    exact .word (hreceptor hfield) (hreceptor hname) (isJoined_receptor hword hfield)
      (isJoined_receptor hgroup hname) ih
  | @cut _ name last s _ hname hlast _ _ _ _ _ ih =>
    have hsplit : name ++ .char '.' :: (last ++ s) = (receptor name ++ last) ++ s := by
      simp [receptor]
    rw [hsplit]
    exact .word hname.1 (hreceptor hlast) hname.isJoined (isJoined_receptor hname hlast) ih

/-- A name ahead of a point is declared by a word behind it only. -/
theorem isBindingPosition_point (before s : Text) :
    isBindingPosition before (.char '.' :: s) = endsInWord declarationWords before := by
  have hmethod : isMethodHead (.char '.' :: s) = false := rfl
  have hkey : isKeyHead (.char '.' :: s) = false := rfl
  rw [isBindingPosition, hmethod, hkey]
  simp

/-- A name that was not to be led is not to be led after the pass. -/
theorem takesReceptor_moved {kept : List Text} {name out after after' : Text}
    (hbehind : DeclaresBehind out before)
    (hbinding : isBindingPosition before after = true → isBindingPosition out after' = true)
    (h : takesReceptor kept before name after = false) :
    takesReceptor kept out name after' = false := by
  have hpoint : headIs (· == .char '.') out = headIs (· == .char '.') before := by
    refine hbehind.headIs_eq (b := false) fun c hc => ?_
    rw [beq_eq_false_iff_ne]
    rintro rfl
    exact absurd hc (by decide)
  rw [takesReceptor, Bool.and_eq_false_iff, Bool.not_eq_false'] at h ⊢
  rw [hpoint]
  exact h.imp_right hbinding

theorem settled_receptor {kept : List Text} (hkept : ∀ n ∈ kept, IsName n) {word field out : Text}
    (hword : IsName word) (hnot : word ∉ kept) (hfield : IsName field)
    (hstart : headIs continuesName out = false)
    (h : Settled kept (field.reverse ++ .char '.' :: (word.reverse ++ out)) t) :
    Settled kept out (receptor word ++ (field ++ t)) := by
  have hpoint : continuesName (.char '.') = false := by decide
  have hfree : ∀ after, takesReceptor kept out word after = false := by
    simp [takesReceptor, hnot]
  have hsplit : receptor word ++ (field ++ t) = word ++ .char '.' :: (field ++ t) := by
    simp [receptor]
  rw [hsplit]
  exact .name hkept hword hpoint hstart (hfree _) (.other hkept hpoint (.joined hfield.isJoined rfl h))

/-- What was settled before a pass is settled after it, and so are its fresh names. -/
theorem settled (h : Moved fresh names before s t) (hnames : ∀ n ∈ fresh ++ names, IsName n)
    {out : Text} (hbehind : DeclaresBehind out before)
    (hcut : Apart before s) (hs : Settled names before s) : Settled (fresh ++ names) out t := by
  -- along the pass, what has been written declares the next name where what has been read did
  induction h generalizing out with
  | nil => exact .nil hnames
  | @other before s t c hc hmoved ih =>
    exact .other hnames hc (ih (.other hc hbehind) (Or.inl hc) hs.uncons)
  | @name before name s t hname hhead hhead' hfree hmoved ih =>
    obtain ⟨hbefore, hout⟩ := hbehind.start hname hcut
    have hkept := hs.takesReceptor_eq hname hhead hbefore
    have hboth : takesReceptor (fresh ++ names) before name s = false := by
      rw [takesReceptor_append, hfree, hkept, Bool.or_self]
    refine .name hnames hname hhead' hout
      (takesReceptor_moved hbehind (hbehind.isBindingPosition_of hmoved.sameAhead) hboth) ?_
    exact ih (.name hname hname id (headIs_isWord hout) (headIs_isWord hbefore)) (Or.inr hhead) hs.tail
  | @led before name word field s t hname hhead hhead' hword hnot hfield hdeclares hmoved ih =>
    obtain ⟨hbefore, hout⟩ := hbehind.start hname hcut
    refine settled_receptor hnames hword hnot hfield hout (ih ?_ (Or.inr hhead) hs.tail)
    exact .name hfield hname hdeclares rfl (headIs_isWord hbefore)
  | @member before group name word field s t hgroup hname hhead hhead' hword hnot hfield hdeclares
      hmoved ih =>
    obtain ⟨hbefore, hout⟩ := hbehind.start hgroup hcut
    have hrest : Settled names (name.reverse ++ .char '.' :: (group.reverse ++ before)) s :=
      hs.tail.uncons.tail
    refine settled_receptor hnames hword hnot hfield hout (ih ?_ (Or.inr hhead) hrest)
    exact .name hfield hname hdeclares rfl rfl
  | @cut before name last s t hname hlast hdeclares hhead hhead' hfree hmoved ih =>
    have hpoint : headIs continuesName (.char '.' :: (last ++ s)) = false :=
      (by decide : continuesName (.char '.') = false)
    obtain ⟨hbefore, hout⟩ := hbehind.start hname hcut
    have hkept := hs.takesReceptor_eq hname hpoint hbefore
    have hboth : takesReceptor (fresh ++ names) before name (.char '.' :: (last ++ s)) = false := by
      rw [takesReceptor_append, hfree, hkept, Bool.or_self]
    have hrest : Settled names (last.reverse ++ .char '.' :: (name.reverse ++ before)) s :=
      hs.tail.uncons.tail
    refine .name hnames hname hhead' hout (takesReceptor_moved hbehind (fun hbinding => ?_) hboth) ?_
    · -- ahead of the point nothing but a word behind the name declares it
      rw [isBindingPosition_point] at hbinding
      rw [isBindingPosition, hbehind.endsInWord_of hbinding, Bool.true_or, Bool.true_or]
    · refine ih ?_ (Or.inr hhead) hrest
      exact .name hname hlast (fun hword => by simp [hdeclares] at hword) (headIs_isWord hout) rfl

end Moved

section Passes

variable {names : List Text}

theorem moved_placeReceptors {word : Text} (hword : IsName word) {fresh : List Text}
    (hnot : word ∉ fresh ++ names) (before s : Text) :
    Moved fresh names before s (placeReceptors (receptor word) fresh before s) := by
  induction s using nameInduction generalizing before with
  | nil => rw [placeReceptors_nil]; exact .nil
  | other c cs hc ih => rw [placeReceptors_other _ _ _ hc]; exact .other hc (ih _)
  | name name rest hname hrest ih =>
    have hhead := headIs_placeReceptors (receptor word) fresh (name.reverse ++ before) hrest
    rw [placeReceptors_name _ _ _ hname hrest]
    split
    next =>
      rw [List.append_assoc]
      exact .led hname hrest hhead hword hnot hname id (ih _)
    next hfree => exact .name hname hrest hhead (by simpa using hfree) (ih _)

theorem moved_stripFrom {r : Receptor} (hr : Leads names r) (before s : Text) :
    Moved [] names before s (stripFrom r 0 before s) := by
  induction before, s using memberInduction with
  | nil before => rw [stripFrom_nil]; exact .nil
  | other before c cs hc ih => rw [stripFrom_other _ _ hc]; exact .other hc ih
  | name before name rest hname hrest h ih =>
    rw [stripFrom_name _ hname hrest h]
    exact .name hname hrest (headIs_stripFrom _ _ hrest) rfl ih
  | member before group member rest hg hbefore hmember hstart hrest ih =>
    obtain ⟨word, field, hwritten, hword, hnot, hfield, hdeclares⟩ := hr member hmember
    rw [stripFrom_member _ hg hbefore hmember hstart hrest, hwritten, List.append_assoc]
    exact .member (isName_of_mem_memberGroups hg) hmember hrest (headIs_stripFrom _ _ hrest) hword hnot
      hfield hdeclares ih

theorem keepsRuns_stripFrom {r : Receptor} (hr : Leads names r) : KeepsRuns (stripFrom r 0 []) :=
  keepsRuns_of_sameAhead fun run => (moved_stripFrom hr [] run).sameAhead

/-- A pass for names that are settled leaves the text as it is. -/
theorem placeReceptors_of_settled (lead : Text) {fewer : List Text} (hfewer : ∀ n ∈ fewer, n ∈ names)
    {before s : Text} (hcut : Apart before s)
    (h : Settled names before s) : placeReceptors lead fewer before s = s := by
  induction s using nameInduction generalizing before with
  | nil => rw [placeReceptors_nil]
  | other c cs hc ih =>
    have hcs : placeReceptors lead fewer (c :: before) cs = cs := ih (Or.inl hc) h.uncons
    rw [placeReceptors_other _ _ _ hc, hcs]
  | name name rest hname hrest ih =>
    have hkept := h.takesReceptor_eq hname hrest (hname.start hcut)
    have hfree : takesReceptor fewer before name rest = false := by
      rw [takesReceptor, Bool.and_assoc, Bool.and_eq_false_iff] at hkept ⊢
      refine hkept.imp_left fun hnot => ?_
      rw [Bool.eq_false_iff, ne_eq, List.contains_iff_mem] at hnot ⊢
      exact fun hmem => hnot (hfewer name hmem)
    rw [placeReceptors_name _ _ _ hname hrest, hfree, if_neg Bool.false_ne_true,
      ih (Or.inr hrest) h.tail]

end Passes

end ElementCompiler.Snippet
