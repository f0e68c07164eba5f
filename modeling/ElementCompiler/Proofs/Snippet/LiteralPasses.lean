import ElementCompiler.Proofs.Snippet.AddedWords
import ElementCompiler.Proofs.Snippet.Literals

set_option autoImplicit false

/-!
The literals of a snippet after a pass. One over the plain runs keeps every literal; one over the whole
snippet goes through each literal by itself.
-/

namespace ElementCompiler.Snippet

open Text

section Passes

variable {f : Text → Text} {writes : Text → Text → Prop} {code name : Text}

/-- What is written is something, and has no quotes if what it is written for has none. -/
def WritesPlain (writes : Text → Text → Prop) : Prop := ∀ old new, writes old new →
  new ≠ [] ∧ ((∀ c ∈ old, isNotQuote c = true) → ∀ c ∈ new, isNotQuote c = true)

theorem Rewritten.isNotQuote {before s t : Text} (h : Rewritten writes before s t)
    (hwrites : ∀ old new, writes old new → (∀ c ∈ old, Snippet.isNotQuote c = true) →
      ∀ c ∈ new, Snippet.isNotQuote c = true)
    (hs : ∀ c ∈ s, Snippet.isNotQuote c = true) : ∀ c ∈ t, Snippet.isNotQuote c = true := by
  induction h with
  | nil => exact hs
  | copy _ ih =>
    rw [List.forall_mem_cons] at hs
    exact List.forall_mem_cons.mpr ⟨hs.1, ih hs.2⟩
  | write _ _ hnew _ ih =>
    rw [List.forall_mem_append] at hs
    exact List.forall_mem_append.mpr ⟨hwrites _ _ hnew hs.1, ih hs.2⟩

theorem Rewritten.ne_nil {before s t : Text} (h : Rewritten writes before s t) (hwrites : WritesPlain writes)
    (hs : s ≠ []) : t ≠ [] := by
  cases h with
  | nil => exact absurd rfl hs
  | copy _ => exact List.cons_ne_nil _ _
  | write _ _ hnew _ => exact List.append_ne_nil_of_left_ne_nil (hwrites _ _ hnew).1 _

theorem keepsRuns_of_rewritten (h : ∀ run, Rewritten writes [] run (f run)) (hwrites : WritesPlain writes) :
    KeepsRuns f :=
  ⟨fun run hrun => (h run).isNotQuote (fun old new hnew => (hwrites old new hnew).2) hrun,
    fun run hne => (h run).ne_nil hwrites hne⟩

theorem literals_of_rewritten (h : ∀ run, Rewritten writes [] run (f run))
    (hwrites : ∀ old new, writes old new → (∀ c ∈ old, isNotQuote c = true) → ∀ c ∈ new, isNotQuote c = true)
    (code : Text) : literals (mapPlain f code) = literals code :=
  literals_mapPlain (fun run hrun => (h run).isNotQuote hwrites hrun) code

/-- A pass for a name leaves the literals, whatever the name is. -/
theorem literals_substitute {written : Text → Text → Text}
    (h : (∀ c ∈ name, isNotQuote c = true) → ∀ before after, ∀ c ∈ written before after, isNotQuote c = true)
    (code : Text) : literals (mapPlain (substitute name written) code) = literals code := by
  refine literals_of_rewritten (rewritten_substituteFrom name written []) ?_ code
  rintro _ _ ⟨rfl, before, after, rfl⟩ hname
  exact h hname before after

theorem literals_replaceOne {written : Text}
    (h : (∀ c ∈ name, isNotQuote c = true) → ∀ c ∈ written, isNotQuote c = true) (code : Text) :
    literals (replaceOne written name code) = literals code := by
  refine literals_substitute (fun hname before after => ?_) code
  split
  next => exact hname
  next => exact h hname

theorem literals_relocate {lead : Text} (hlead : ∀ c ∈ lead, isNotQuote c = true) (names : List Text)
    (code : Text) : literals (relocate lead names code) = literals code := by
  unfold relocate replaceNames
  induction names generalizing code with
  | nil => rfl
  | cons name names ih =>
    rw [List.foldl_cons, ih]
    split
    next => rfl
    next => exact literals_replaceOne (fun hname => List.forall_mem_append.mpr ⟨hlead, hname⟩) code

theorem literals_stripWith {receptor : Receptor}
    (h : ∀ member, IsName member → ∀ c ∈ receptor member, isNotQuote c = true) (code : Text) :
    literals (strip receptor code) = literals code := by
  refine literals_of_rewritten (rewritten_stripFrom _ []) ?_ code
  rintro _ _ ⟨group, member, hmember, rfl, rfl⟩ -
  exact h member hmember

theorem isNotQuote_before {lead member : Text} (hlead : ∀ c ∈ lead, isNotQuote c = true)
    (hmember : IsName member) : ∀ c ∈ Receptor.before lead member, isNotQuote c = true :=
  List.forall_mem_append.mpr ⟨hlead, fun c hc => isNotQuote_of_continuesName (hmember.2 c hc)⟩

theorem literals_strip {lead : Text} (hlead : ∀ c ∈ lead, isNotQuote c = true) (code : Text) :
    literals (strip (.before lead) code) = literals code :=
  literals_stripWith (fun _ => isNotQuote_before hlead) code

theorem literals_relocateMembers {lead inner : Text} (hlead : ∀ c ∈ lead, isNotQuote c = true)
    (hinner : ∀ c ∈ inner, isNotQuote c = true) (names : List Text) (code : Text) :
    literals (relocateMembers names lead (.before inner) code) = literals code :=
  (literals_strip hinner _).trans (literals_relocate hlead _ code)

end Passes

section Segments

variable {s : Segment} {code : Text}

theorem isNotQuote_of_mem_segments {run : Text} (h : .plain run ∈ segments code) :
    ∀ c ∈ run, isNotQuote c = true := by
  fun_induction segments code with
  | case1 => cases h
  | case2 c cs _ ih => exact ih ((List.mem_cons.mp h).resolve_left Segment.noConfusion)
  | case3 c cs hc ih =>
    rcases List.mem_cons.mp h with heq | h
    · obtain rfl := Segment.plain.inj heq
      exact List.forall_mem_cons.mpr ⟨by simpa [isNotQuote] using hc, fun d hd => List.mem_takeWhile_imp hd⟩
    · exact ih h

/-- Every segment is cut as a whole where it stands alone. -/
theorem segments_text (h : s ∈ segments code) : segments s.text = [s] := by
  cases s with
  | plain run =>
    have halone : segments (run ++ []) = .plain run :: segments [] :=
      segments_run_append (text_ne_nil_of_mem_segments h) (isNotQuote_of_mem_segments h) fun _ _ heq => nomatch heq
    rwa [List.append_nil, segments] at halone
  | literal text =>
    fun_induction segments code with
    | case1 => cases h
    | case2 c cs hc ih =>
      rcases List.mem_cons.mp h with heq | h
      · obtain rfl := Segment.literal.inj heq
        have halone := literalRest_of_ended c cs [] fun _ => rfl
        rw [List.append_nil] at halone
        rw [Segment.text, segments, if_pos hc, halone, segments]
      · exact ih h
    | case3 c cs _ ih => exact ih ((List.mem_cons.mp h).resolve_left Segment.noConfusion)

theorem length_segments_le (code : Text) : (segments code).length ≤ code.length := by
  have hparts : ∀ parts : List Segment, (∀ s ∈ parts, s.text ≠ []) →
      parts.length ≤ (parts.flatMap Segment.text).length := by
    intro parts
    induction parts with
    | nil => intro _; exact Nat.le_refl _
    | cons s parts ih =>
      intro h
      obtain ⟨hs, hrest⟩ := List.forall_mem_cons.mp h
      have hpos := List.length_pos_of_ne_nil hs
      have hle := ih hrest
      rw [List.flatMap_cons, List.length_append, List.length_cons]
      omega
  have hcode := hparts (segments code) fun _ => text_ne_nil_of_mem_segments
  rwa [flatMap_text_segments] at hcode

/-- A pass over the runs of a snippet, with what it writes. -/
inductive RunPass where
  | relocate (lead : Text) (names : List Text)
  | strip (receptor : Receptor)
  | rename (argument token : Text)

namespace RunPass

def run : RunPass → Text → Text
  | .relocate lead names, code => Snippet.relocate lead names code
  | .strip receptor, code => Snippet.strip receptor code
  | .rename argument token, code => renameArgument argument token code

/-- What a pass puts in has no quote. The names and the argument that it looks for may be any text. -/
def WritesNoQuote : RunPass → Prop
  | .relocate lead _ => ∀ c ∈ lead, isNotQuote c = true
  | .strip receptor => ∀ member, IsName member → ∀ c ∈ receptor member, isNotQuote c = true
  | .rename _ token => ∀ c ∈ token, isNotQuote c = true

theorem literals_run {pass : RunPass} (h : pass.WritesNoQuote) (code : Text) :
    literals (pass.run code) = literals code := by
  cases pass with
  | relocate lead names => exact literals_relocate h names code
  | strip receptor => exact literals_stripWith h code
  | rename argument token => exact literals_substitute (fun _ _ _ => h) code

theorem literals_foldl {passes : List RunPass} (h : ∀ pass ∈ passes, pass.WritesNoQuote) (code : Text) :
    literals (passes.foldl (fun code pass => pass.run code) code) = literals code := by
  induction passes generalizing code with
  | nil => rfl
  | cons pass passes ih =>
    obtain ⟨hpass, hpasses⟩ := List.forall_mem_cons.mp h
    rw [List.foldl_cons, ih hpasses, literals_run hpass]

end RunPass

/-- A snippet is its segments in order, none of them empty and each cut alone as it is cut here, and a
    quote stands in literals only. However many passes put texts without quotes into the runs, the
    literals stay the same, character for character. -/
theorem segments_through_passes (code : Text) {passes : List RunPass}
    (h : ∀ pass ∈ passes, pass.WritesNoQuote) :
    (segments code).flatMap Segment.text = code ∧ (segments code).length ≤ code.length ∧
      (∀ s ∈ segments code, s.text ≠ [] ∧ segments s.text = [s]) ∧
      (∀ run, .plain run ∈ segments code → ∀ c ∈ run, isNotQuote c = true) ∧
      literals (passes.foldl (fun code pass => pass.run code) code) = literals code :=
  ⟨flatMap_text_segments code, length_segments_le code,
    fun _ hs => ⟨text_ne_nil_of_mem_segments hs, segments_text hs⟩,
    fun _ hrun => isNotQuote_of_mem_segments hrun, RunPass.literals_foldl h code⟩

theorem segments_through_three_passes :
    let code := ofString "say('x it\\'s', state.x) + \"x\n + x(e, 'e"
    let passes : List RunPass := [.relocate "this." ["x"], .strip (.before "this."), .rename "e" "$event"]
    (∀ pass ∈ passes, pass.WritesNoQuote) ∧
      passes.foldl (fun code pass => pass.run code) code =
        "say('x it\\'s', this.x) + \"x\n + this.x($event, 'e" ∧
      literals code = ["'x it\\'s'", "\"x\n", "'e"] ∧
      literals (passes.foldl (fun code pass => pass.run code) code) = literals code := by
  intro code passes
  have hpasses : ∀ pass ∈ passes, pass.WritesNoQuote := by
    rw [List.forall_mem_cons, List.forall_mem_cons, List.forall_mem_singleton]
    refine ⟨?_, fun _ => isNotQuote_before ?_, ?_⟩ <;> change ∀ c ∈ ofString _, _ <;> decide
  exact ⟨hpasses, by decide +kernel, by decide +kernel, (segments_through_passes code hpasses).2.2.2.2⟩

end Segments

section Whole

variable {pat new code name : Text}

theorem substitute_of_unused (written : Text → Text → Text) (h : uses code name = false) :
    substitute name written code = code := by
  have hplaces : ∀ place before s, placesFrom name place 0 before s = [] →
      substituteFrom name written 0 before s = s := by
    intro place before s
    induction s generalizing place before with
    | nil =>
      intro hnone
      rw [placesFrom] at hnone
      rw [substituteFrom]
      cases hoccurs : occursAt? name before [] with
      | none => rfl
      | some after => simp [hoccurs] at hnone
    | cons c cs ih =>
      intro hnone
      rw [placesFrom] at hnone
      cases hoccurs : occursAt? name before (c :: cs) with
      | none =>
        rw [hoccurs] at hnone
        rw [substituteFrom_of_none written hoccurs, ih _ _ hnone]
      | some after => simp [hoccurs] at hnone
  exact hplaces 0 [] code (by simpa [uses] using h)

namespace JoinsWords

/-- A pass over a whole snippet goes through every literal by itself. -/
theorem literals_substitute (h : JoinsWords pat new) (code : Text) :
    literals (substitute pat (fun _ _ => new) code) =
      (literals code).map (substitute pat fun _ _ => new) := by
  rw [literals, h.segments_substitute, literals]
  induction segments code with
  | nil => rfl
  | cons s rest ih =>
    cases s with
    | literal text => exact congrArg (substitute pat (fun _ _ => new) text :: ·) ih
    | plain text => exact ih

/-- A pass over the runs can be cut where nothing occurs across the cut. -/
theorem mapPlain_append (h : JoinsWords pat new) {s t : Text} (hne : s ≠ [])
    (hs : ∀ c ∈ s, isNotQuote c = true)
    (hcut : (∃ front c, s = front ++ [c] ∧ isJoined c = false) ∨ ∀ c cs, t = c :: cs → isJoined c = false) :
    mapPlain (substitute pat fun _ _ => new) (s ++ t) =
      substitute pat (fun _ _ => new) s ++ mapPlain (substitute pat fun _ _ => new) t := by
  have hempty : substitute pat (fun _ _ => new) [] = [] := substituteFrom_nil _ h.head []
  have hfirst : ∀ u, (∀ c cs, u = c :: cs → ∃ ds, t = c :: ds) →
      substitute pat (fun _ _ => new) (s ++ u) =
        substitute pat (fun _ _ => new) s ++ substitute pat (fun _ _ => new) u := by
    intro u hu
    rcases hcut with ⟨front, last, rfl, hlast⟩ | ht
    · rw [List.append_assoc, List.singleton_append, h.substitute_append hlast, h.substitute_append hlast,
        hempty, List.append_assoc, List.singleton_append]
    · refine h.substituteFrom_append (fun c cs heq => ?_) [] s
      obtain ⟨ds, hds⟩ := hu c cs heq
      exact ht c ds hds
  cases t with
  | nil => rw [List.append_nil, Snippet.mapPlain_of_noQuote hne hs, mapPlain_nil, List.append_nil]
  | cons c cs =>
    rw [Snippet.mapPlain_append hne hs, hfirst _ ?_, List.append_assoc]
    · cases hc : isQuote c with
      | true =>
        have hnot : ¬ isNotQuote c = true := by simp [isNotQuote, hc]
        rw [List.takeWhile_cons_of_neg hnot, List.dropWhile_cons_of_neg hnot, hempty, List.nil_append]
      | false =>
        have hplain : isNotQuote c = true := by simp [isNotQuote, hc]
        rw [List.takeWhile_cons_of_pos hplain, List.dropWhile_cons_of_pos hplain, mapPlain_run _ hc]
    · intro d ds heq
      by_cases hc : isNotQuote c = true
      · rw [List.takeWhile_cons_of_pos hc] at heq
        exact ⟨cs, by rw [(List.cons.inj heq).1]⟩
      · rw [List.takeWhile_cons_of_neg hc] at heq
        cases heq

end JoinsWords

end Whole

end ElementCompiler.Snippet
