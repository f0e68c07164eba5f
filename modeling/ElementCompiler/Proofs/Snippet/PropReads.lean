import ElementCompiler.Component.Names
import ElementCompiler.Proofs.Snippet.Relocated
import ElementCompiler.Proofs.Snippet.Words

set_option autoImplicit false

/-!
The props that a snippet reads. Stripping works on the runs between literals and passes over the
members of the state as well, while the search for props goes through the whole snippet; still the
search finds every prop that stripping rewrites.
-/

namespace ElementCompiler.Snippet

open Text

/-- A part of a snippet as stripping takes it: text that stays, or a member behind its group. -/
inductive Part where
  | kept (text : Text)
  | member (group name : Text)
  deriving DecidableEq

def Part.source : Part → Text
  | .kept text => text
  | .member group name => group ++ .char '.' :: name

def Part.written (r : Receptor) : Part → Text
  | .kept text => text
  | .member _ name => r name

/-- The parts of a run; `skip` counts the characters of a member that are still to be passed
    over. -/
def partsFrom : Nat → Text → Text → List Part
  | _, _, [] => []
  | skip + 1, before, c :: cs => partsFrom skip (c :: before) cs
  | 0, before, c :: cs =>
    match memberAt? before (c :: cs) with
    | none => .kept [c] :: partsFrom 0 (c :: before) cs
    | some name =>
      .member ((c :: cs).take 5) name :: partsFrom (leadLength + name.length - 1) (c :: before) cs

/-- The parts of a snippet: its literals stay. -/
def parts (code : Text) : List Part :=
  (segments code).flatMap fun
    | .literal text => [.kept text]
    | .plain text => partsFrom 0 [] text

/-- Stripping rewrites the prop: it takes its name from behind `props.` (`strip_eq_parts`). -/
def Strips (code name : Text) : Prop := Part.member "props" name ∈ parts code

section Parts

/-- A member is named behind its group and a point. -/
theorem memberAt?_eq_some {before rest name : Text} (h : memberAt? before rest = some name) :
    ∃ group tail, group ∈ memberGroups ∧ rest = group ++ .char '.' :: (name ++ tail) ∧
      headIs isJoined before = false ∧ IsName name ∧ headIs (·.is isNameStart) name = true ∧
      headIs continuesName tail = false := by
  have hname := isName_of_memberAt? h
  rw [memberAt?] at h
  split at h
  next => cases h
  next hbefore =>
    split at h
    next c cs hafter =>
      split at h
      next hc =>
        obtain rfl := Option.some.inj h
        have hgroup : ∃ group ∈ memberGroups, after? (group ++ [.char '.']) rest = some (c :: cs) := by
          rcases Option.or_eq_some_iff.mp (by simpa using hafter) with hstate | ⟨_, hprops⟩
          · exact ⟨"state", by decide, hstate⟩
          · exact ⟨"props", by decide, hprops⟩
        obtain ⟨group, hmem, hgroup⟩ := hgroup
        refine ⟨group, cs.dropWhile continuesName, hmem, ?_, by simpa using hbefore, hname, hc,
          headIs_dropWhile continuesName cs⟩
        rw [eq_append_of_after? hgroup]
        simp
      next => cases h
    next => cases h

theorem partsFrom_written (r : Receptor) (skip : Nat) (before s : Text) :
    (partsFrom skip before s).flatMap (Part.written r) = stripFrom r skip before s := by
  fun_induction partsFrom skip before s with
  | case1 skip before => rw [stripFrom]; rfl
  | case2 skip before c cs ih => rw [stripFrom, ih]
  | case3 before c cs hnone ih => rw [stripFrom_of_none r hnone, List.flatMap_cons, ih]; rfl
  | case4 before c cs name hsome ih => rw [stripFrom, hsome, List.flatMap_cons, ih]; rfl

theorem partsFrom_source (skip : Nat) (before s : Text) :
    (partsFrom skip before s).flatMap Part.source = s.drop skip := by
  fun_induction partsFrom skip before s with
  | case1 skip before => rw [List.drop_nil]; rfl
  | case2 skip before c cs ih => rw [ih, List.drop_succ_cons]
  | case3 before c cs hnone ih => rw [List.flatMap_cons, ih]; rfl
  | case4 before c cs name hsome ih =>
    obtain ⟨group, tail, hgroup, hsplit, -⟩ := memberAt?_eq_some hsome
    have hlength := length_of_mem_memberGroups group hgroup
    have hdrop : cs.drop (leadLength + name.length - 1) = tail := by
      have hcount : leadLength + name.length = (group ++ .char '.' :: name).length := by
        simp only [List.length_append, List.length_cons, hlength, leadLength]
        omega
      calc
        cs.drop (leadLength + name.length - 1)
          = (c :: cs).drop (leadLength + name.length) := by
            rw [leadLength, Nat.add_comm 6, List.drop_succ_cons]; rfl
        _ = tail := by
            rw [hsplit, hcount]
            have happend : group ++ .char '.' :: (name ++ tail) =
                (group ++ .char '.' :: name) ++ tail := by simp
            rw [happend, List.drop_left]
    have htake : (c :: cs).take 5 = group := by rw [hsplit, ← hlength, List.take_left]
    rw [List.flatMap_cons, ih, hdrop, htake, Part.source, List.drop_zero, hsplit]
    simp

/-- The parts are what the snippet is made of. -/
theorem parts_source (code : Text) : (parts code).flatMap Part.source = code := by
  conv_rhs => rw [← flatMap_text_segments code]
  rw [parts, List.flatMap_assoc]
  refine List.flatMap_congr fun s _ => ?_
  cases s with
  | literal text => exact List.append_nil text
  | plain text => exact partsFrom_source 0 [] text

/-- Whatever a receptor writes, stripping writes it for the members and leaves the other parts. -/
theorem strip_eq_parts (r : Receptor) (code : Text) :
    strip r code = (parts code).flatMap (Part.written r) := by
  rw [strip, mapPlain, parts, List.flatMap_assoc]
  refine List.flatMap_congr fun s _ => ?_
  cases s with
  | literal text => exact (List.append_nil text).symm
  | plain text => exact (partsFrom_written r 0 [] text).symm

/-- Code without literals is one run. -/
theorem strips_of_noQuote {run name : Text} (hne : run ≠ []) (hrun : ∀ c ∈ run, isNotQuote c = true) :
    Strips run name ↔ Part.member "props" name ∈ partsFrom 0 [] run := by
  have hsegments : segments (run ++ []) = .plain run :: segments [] :=
    segments_run_append hne hrun (by rintro _ _ ⟨⟩)
  rw [List.append_nil, segments] at hsegments
  rw [Strips, parts, hsegments, List.flatMap_singleton]

end Parts

/-- The text names a prop where a name may begin, `near` characters from its start. -/
structure NamesProp (near before name tail : Text) : Prop where
  free : headIs isJoined (near.reverse ++ before) = false
  isName : IsName name
  start : headIs (·.is isNameStart) name = true
  ends : headIs continuesName tail = false

def propLead : Text := "props."

section Search

variable {near before name tail : Text}

theorem namesProp_cons {c : CodePoint} :
    NamesProp (c :: near) before name tail ↔ NamesProp near (c :: before) name tail := by
  have hbefore : (c :: near).reverse ++ before = near.reverse ++ c :: before := by simp
  constructor
  · exact fun h => ⟨hbefore ▸ h.free, h.isName, h.start, h.ends⟩
  · exact fun h => ⟨hbefore ▸ h.free, h.isName, h.start, h.ends⟩

theorem NamesProp.propAt? (h : NamesProp near before name tail) :
    Component.propAt? (near.reverse ++ before) (propLead ++ (name ++ tail)) = some name := by
  obtain ⟨c, cs, rfl⟩ := List.exists_cons_of_ne_nil h.isName.1
  have hcs : ∀ d ∈ cs, continuesName d = true := fun d hd => h.isName.2 d (List.mem_cons_of_mem c hd)
  have hafter : after? "props." (propLead ++ (c :: cs ++ tail)) = some (c :: (cs ++ tail)) :=
    after?_append propLead _
  have hstart : c.is isNameStart = true := h.start
  rw [Component.propAt?, h.free, if_neg Bool.false_ne_true, hafter]
  simp only [hstart, if_true, takeWhile_run hcs h.ends]

/-- A prop that is found is named where it is found. -/
theorem namesProp_of_propAt? {rest : Text} (h : Component.propAt? before rest = some name) :
    ∃ tail, rest = propLead ++ (name ++ tail) ∧ NamesProp [] before name tail := by
  rw [Component.propAt?] at h
  split at h
  next => cases h
  next hfree =>
    split at h
    next c cs hafter =>
      split at h
      next hc =>
        obtain rfl := Option.some.inj h
        refine ⟨cs.dropWhile continuesName, ?_, by simpa using hfree,
          isName_takeWhile (continuesName_of_isNameStart hc) cs, hc, headIs_dropWhile _ cs⟩
        rw [eq_append_of_after? hafter, List.cons_append, List.takeWhile_append_dropWhile]
        rfl
      next => cases h
    next => cases h

/-- Every character of a prop behind its lead joins what comes after it. -/
theorem NamesProp.isJoined (h : NamesProp near before name tail) :
    ∀ c ∈ propLead ++ name, isJoined c = true := by
  have hlead : ∀ c ∈ propLead, Snippet.isJoined c = true := by decide
  intro c hc
  exact (List.mem_append.mp hc).elim (hlead c) (h.isName.isJoined c)

/-- What stripping takes from behind `props.` is named there. -/
theorem exists_namesProp {skip : Nat} {before s name : Text}
    (h : Part.member "props" name ∈ partsFrom skip before s) :
    ∃ near tail, s = near ++ (propLead ++ (name ++ tail)) ∧ NamesProp near before name tail := by
  fun_induction partsFrom skip before s with
  | case1 skip before => exact absurd h List.not_mem_nil
  | case2 skip before c cs ih =>
    obtain ⟨near, tail, rfl, hprop⟩ := ih h
    exact ⟨c :: near, tail, rfl, namesProp_cons.mpr hprop⟩
  | case3 before c cs hnone ih =>
    obtain ⟨near, tail, rfl, hprop⟩ := ih (by simpa using h)
    exact ⟨c :: near, tail, rfl, namesProp_cons.mpr hprop⟩
  | case4 before c cs member hsome ih =>
    rcases List.mem_cons.mp h with hhead | h
    · obtain ⟨hgroup, rfl⟩ := Part.member.inj hhead
      obtain ⟨group, tail, hmem, hsplit, hfree, hname, hstart, hends⟩ := memberAt?_eq_some hsome
      have htake : (c :: cs).take 5 = group := by
        rw [hsplit, ← length_of_mem_memberGroups group hmem, List.take_left]
      obtain rfl := hgroup.trans htake
      exact ⟨[], tail, hsplit, hfree, hname, hstart, hends⟩
    · obtain ⟨near, tail, rfl, hprop⟩ := ih h
      exact ⟨c :: near, tail, rfl, namesProp_cons.mpr hprop⟩

/-- The search does not pass over a prop: inside another that it found, every character is joined to
    the one before it. -/
theorem mem_propReadsFrom {skip : Nat} (hskip : skip ≤ near.length)
    (h : NamesProp near before name tail) :
    name ∈ Component.propReadsFrom skip before (near ++ (propLead ++ (name ++ tail))) := by
  generalize hs : near ++ (propLead ++ (name ++ tail)) = s
  fun_induction Component.propReadsFrom skip before s generalizing near with
  | case1 skip before => simp [propLead, ofString] at hs
  | case2 skip before c cs ih =>
    obtain ⟨d, near, rfl⟩ := List.exists_cons_of_length_pos (Nat.lt_of_lt_of_le skip.succ_pos hskip)
    obtain ⟨rfl, hcs⟩ := List.cons.inj (List.cons_append.symm.trans hs)
    exact ih (Nat.le_of_succ_le_succ hskip)
      (namesProp_cons.mp h) hcs
  | case3 before c cs hnone ih =>
    cases near with
    | nil =>
      have hfound := h.propAt?
      rw [← List.nil_append (propLead ++ _), hs] at hfound
      cases hnone.symm.trans hfound
    | cons d near =>
      obtain ⟨rfl, hcs⟩ := List.cons.inj (List.cons_append.symm.trans hs)
      exact ih near.length.zero_le (namesProp_cons.mp h) hcs
  | case4 before c cs found hsome ih =>
    obtain ⟨rest, hfound, hhere⟩ := namesProp_of_propAt? hsome
    cases near with
    | nil =>
      have hname := h.propAt?
      rw [← List.nil_append (propLead ++ _), hs] at hname
      exact List.mem_cons.mpr (.inl (Option.some.inj (hname.symm.trans hsome)))
    | cons d near =>
      have hpassed : (propLead ++ found).length ≤ (d :: near).length := by
        by_contra hinside
        have hread : propLead ++ found <+: c :: cs :=
          ⟨rest, by rw [hfound, List.append_assoc]⟩
        have hbegins : d :: near <+: propLead ++ found :=
          List.prefix_of_prefix_length_le ⟨_, hs⟩ hread (by omega)
        have hlast : Snippet.isJoined ((d :: near).getLast (List.cons_ne_nil d near)) = true :=
          hhere.isJoined _ (hbegins.subset (List.getLast_mem _))
        have hfree := h.free
        rw [← List.dropLast_append_getLast (List.cons_ne_nil d near)] at hfree
        simp [headIs, hlast] at hfree
      obtain ⟨rfl, hcs⟩ := List.cons.inj (List.cons_append.symm.trans hs)
      refine List.mem_cons_of_mem _ (ih ?_ (namesProp_cons.mp h) hcs)
      simp only [List.length_append, List.length_cons] at hpassed
      have hlead : propLead.length = leadLength := by decide
      omega

end Search

theorem headIs_append {p : CodePoint → Bool} {s t : Text} (hs : headIs p s = false)
    (ht : headIs p t = false) : headIs p (s ++ t) = false := by
  cases s with
  | nil => exact ht
  | cons c cs => exact hs

theorem noQuote_of_mem_segments {code run : Text} (h : .plain run ∈ segments code) :
    ∀ c ∈ run, isNotQuote c = true := by
  fun_induction segments code with
  | case1 => exact absurd h List.not_mem_nil
  | case2 c cs hq ih => exact ih ((List.mem_cons.mp h).resolve_left Segment.noConfusion)
  | case3 c cs hq ih =>
    rcases List.mem_cons.mp h with hrun | h
    · obtain rfl := Segment.plain.inj hrun
      exact List.forall_mem_cons.mpr ⟨by simpa [isNotQuote] using hq,
        fun d hd => List.mem_takeWhile_imp hd⟩
    · exact ih h

/-- A run between literals stands apart from what is before and after it: no name goes on across its
    ends. -/
theorem exists_around_run {code run : Text} (h : .plain run ∈ segments code) :
    ∃ front back, code = front ++ (run ++ back) ∧ headIs isJoined front.reverse = false ∧
      headIs continuesName back = false := by
  have hrun := noQuote_of_mem_segments h
  obtain ⟨d, ds, rfl⟩ := List.exists_cons_of_ne_nil (text_ne_nil_of_mem_segments h)
  fun_induction segments code with
  | case1 => exact absurd h List.not_mem_nil
  | case2 c cs hq ih =>
    have hmem := (List.mem_cons.mp h).resolve_left Segment.noConfusion
    obtain ⟨front, back, hsplit, hfront, hback⟩ := ih hmem
    refine ⟨c :: (literalRest c cs).1 ++ front, back, ?_, ?_, hback⟩
    · conv_lhs => rw [← literalRest_append c cs, hsplit]
      simp
    · rw [List.reverse_append]
      refine headIs_append hfront ?_
      obtain hnone | ⟨lead, e, hend, he⟩ := literalRest_end hq cs
      · simp [hnone] at hsplit
      · simpa [hend, headIs] using he
  | case3 c cs hq ih =>
    have hsplit : c :: cs = c :: cs.takeWhile isNotQuote ++ cs.dropWhile isNotQuote := by simp
    rcases List.mem_cons.mp h with hrun | h
    · refine ⟨[], cs.dropWhile isNotQuote, ?_, rfl, ?_⟩
      · rwa [List.nil_append, Segment.plain.inj hrun]
      · cases hback : cs.dropWhile isNotQuote with
        | nil => rfl
        | cons e es => exact continuesName_eq_false_of_isQuote (isQuote_of_dropWhile hback)
    · obtain ⟨front, back, hrest, hfront, hback⟩ := ih h
      refine ⟨c :: cs.takeWhile isNotQuote ++ front, back, ?_, ?_, hback⟩
      · rw [List.append_assoc, ← hrest, ← hsplit]
      · have hne : front.reverse ≠ [] := by
          rintro hnil
          rw [List.reverse_eq_nil_iff.mp hnil] at hrest
          simp [isNotQuote, isQuote_of_dropWhile hrest] at hrun
        obtain ⟨e, es, hreverse⟩ := List.exists_cons_of_ne_nil hne
        rw [List.reverse_append, hreverse]
        rwa [hreverse] at hfront

/-- Whatever stripping rewrites from behind `props.` in a snippet is found by the search. -/
theorem mem_propReads_of_strips {code name : Text} (h : Strips code name) :
    name ∈ Component.propReads code := by
  obtain ⟨s, hs, hpart⟩ := List.mem_flatMap.mp h
  cases s with
  | literal text => exact absurd (List.mem_singleton.mp hpart) Part.noConfusion
  | plain run =>
    obtain ⟨near, tail, rfl, hnames⟩ := exists_namesProp hpart
    obtain ⟨front, back, rfl, hfront, hback⟩ := exists_around_run hs
    have hsplit : front ++ (near ++ (propLead ++ (name ++ tail)) ++ back) =
        front ++ near ++ (propLead ++ (name ++ (tail ++ back))) := by simp
    rw [hsplit]
    refine mem_propReadsFrom (Nat.zero_le _) ⟨?_, hnames.isName, hnames.start, ?_⟩
    · have hnear := hnames.free
      rw [List.append_nil] at hnear ⊢
      rw [List.reverse_append]
      exact headIs_append hnear hfront
    · exact headIs_append hnames.ends hback

/-- A run without a point refers to no member behind one. -/
theorem noReference_of_noPoint {run : Text} (h : CodePoint.char '.' ∉ run) : NoReference [] run := by
  intro near rest hsplit
  cases hmember : memberAt? (near.reverse ++ []) rest with
  | none => rfl
  | some name =>
    obtain ⟨group, tail, _, rfl, _⟩ := memberAt?_eq_some hmember
    refine absurd ?_ h
    rw [hsplit]
    simp

theorem referenceFree_of_noPoint {code : Text} (h : CodePoint.char '.' ∉ code) : ReferenceFree code :=
  fun _ hrun => noReference_of_noPoint fun hmem => h (mem_of_mem_segments hrun _ hmem)

theorem strip_of_noPoint (r : Receptor) {code : Text} (h : CodePoint.char '.' ∉ code) : strip r code = code :=
  (referenceFree_of_noPoint h).strip r

/-- A snippet that is one member behind its group is stripped to what the receptor makes of it. -/
theorem strip_member (r : Receptor) {group : Text} (hgroup : group ∈ memberGroups) {member : Text}
    (hmember : IsName member) (hstart : headIs (·.is isNameStart) member = true) : strip r (group ++ .char '.' :: member) = r member := by
  have hname := isName_of_mem_memberGroups hgroup
  have hquote : ∀ c ∈ group ++ .char '.' :: member, isNotQuote c = true := by
    simp only [List.forall_mem_append, List.forall_mem_cons]
    exact ⟨fun c hc => isNotQuote_of_continuesName (hname.2 c hc), rfl,
      fun c hc => isNotQuote_of_continuesName (hmember.2 c hc)⟩
  have hstripped : stripFrom r 0 [] (group ++ .char '.' :: (member ++ [])) = _ :=
    stripFrom_member r hgroup rfl hmember hstart rfl
  rw [List.append_nil, stripFrom, List.append_nil] at hstripped
  rw [strip, mapPlain_of_noQuote (by simp) hquote, hstripped]

end ElementCompiler.Snippet
