import ElementCompiler.Proofs.Snippet.Strip
import ElementCompiler.Proofs.Snippet.Words

set_option autoImplicit false

/-!
The words that a pass adds to a snippet. A pass writes something for what it finds where no name is
going on and none begins behind it, so it can cut no word and join none: a word that a snippet has
after a pass is one that it had, or one of what was written.
-/

namespace ElementCompiler.Snippet

open Text

/-- A text read from left to right, parts of it written in another way. `before` is what has been
    read, nearest character first. -/
inductive Rewritten (writes : Text → Text → Prop) : (before s t : Text) → Prop where
  | nil {before : Text} : Rewritten writes before [] []
  | copy {before s t : Text} {c : CodePoint} : Rewritten writes (c :: before) s t →
      Rewritten writes before (c :: s) (c :: t)
  | write {before old new s t : Text} : headIs isJoined before = false →
      headIs continuesName s = false → writes old new →
      Rewritten writes (old.reverse ++ before) s t → Rewritten writes before (old ++ s) (new ++ t)

theorem Rewritten.mono {writes writes' : Text → Text → Prop} {before s t : Text} (h : Rewritten writes before s t)
    (himp : ∀ old new, writes old new → writes' old new) : Rewritten writes' before s t := by
  induction h with
  | nil => exact .nil
  | copy _ ih => exact .copy ih
  | write hbefore hafter hnew _ ih => exact .write hbefore hafter (himp _ _ hnew) ih

/-- What is written for a part has the word only if the part has it, and it ends in a name only if
    the part does. -/
structure KeepsWord (word old new : Text) : Prop where
  mem : word ∈ words new → word ∈ words old
  ended : headIs continuesName new.reverse = true → headIs continuesName old.reverse = true

namespace KeepsWord

variable {word lead name : Text}

theorem refl (word name : Text) : KeepsWord word name name := ⟨id, id⟩

theorem trans {old new newer : Text} (h : KeepsWord word old new) (h' : KeepsWord word new newer) :
    KeepsWord word old newer := ⟨h.mem ∘ h'.mem, h.ended ∘ h'.ended⟩

theorem headIs_reverse_append {p : CodePoint → Bool} (first : Text) (hname : name ≠ []) :
    headIs p (first ++ name).reverse = headIs p name.reverse := by
  obtain ⟨c, cs, hc⟩ := List.exists_cons_of_ne_nil (List.reverse_ne_nil_iff.mpr hname)
  rw [List.reverse_append, hc]
  rfl

/-- A receptor adds its own word. -/
theorem receptor (hlead : IsName lead) (hne : word ≠ lead) (hname : name ≠ []) :
    KeepsWord word name (Snippet.receptor lead ++ name) where
  mem h := by
    have hpoint : headIs continuesName [CodePoint.char '.'] = false := rfl
    have hwords : words (Snippet.receptor lead) = [lead] := by
      rw [Snippet.receptor, words_append (.inr hpoint), words_name hlead]
      rfl
    have hend : headIs continuesName (Snippet.receptor lead).reverse = false := by
      rw [Snippet.receptor, List.reverse_append]
      rfl
    rw [words_append (.inl hend), hwords] at h
    exact (List.mem_cons.mp h).resolve_left hne
  ended h := by rwa [headIs_reverse_append _ hname] at h

/-- A low line in front of a name changes its first word. -/
theorem lowLine (hword : headIs (· == .char '_') word = false) (hname : name ≠ []) :
    KeepsWord word name ("_" ++ name) where
  mem h := by
    have hline : continuesName (.char '_') = true := rfl
    change word ∈ words (.char '_' :: name) at h
    rw [words_cons hline] at h
    rcases List.mem_cons.mp h with rfl | h
    · cases hword
    · exact mem_words_of_inside h
  ended h := by rwa [headIs_reverse_append _ hname] at h

/-- A reference cut down to its name. -/
theorem current (word name : Text) : KeepsWord word (name ++ ".current") name where
  mem h := by
    have hpoint : headIs continuesName (ofString ".current") = false := rfl
    rw [words_append (.inr hpoint)]
    exact List.mem_append_left _ h
  ended _ := by rw [headIs_reverse_append name (by decide)]; rfl

/-- A member written without its group. -/
theorem member {group : Text} (hname : IsName name) :
    KeepsWord word (group ++ .char '.' :: name) name where
  mem h := by
    have hpoint : headIs continuesName (.char '.' :: name) = false := rfl
    rw [words_append (.inr hpoint), words, words, wordsFrom_other false hpoint]
    exact List.mem_append_right _ h
  ended h := by
    have hsplit : group ++ .char '.' :: name = (group ++ [.char '.']) ++ name := by simp
    rwa [hsplit, headIs_reverse_append _ hname.1]

end KeepsWord

namespace Rewritten

variable {writes : Text → Text → Prop} {before s t : Text}

theorem copies {run : Text} (h : Rewritten writes (run.reverse ++ before) s t) :
    Rewritten writes before (run ++ s) (run ++ t) := by
  induction run generalizing before with
  | nil => exact h
  | cons c cs ih =>
    refine .copy (ih ?_)
    rwa [List.reverse_cons, List.append_assoc, List.singleton_append] at h

/-- A name that is going on is copied. -/
theorem takeWhile_eq (h : Rewritten writes before s t) (hbefore : headIs isJoined before = true) :
    t.takeWhile continuesName = s.takeWhile continuesName := by
  induction h with
  | nil => rfl
  | @copy _ s t c _ ih =>
    by_cases hc : continuesName c = true
    · rw [List.takeWhile_cons_of_pos hc, List.takeWhile_cons_of_pos hc,
        ih (isJoined_of_continuesName hc)]
    · rw [List.takeWhile_cons_of_neg hc, List.takeWhile_cons_of_neg hc]
  | write hfree _ _ _ _ => exact absurd (hbefore.symm.trans hfree) (by decide)

theorem headIs_of_joined (h : Rewritten writes before s t) (hbefore : headIs isJoined before = true)
    (hs : headIs continuesName s = false) : headIs continuesName t = false := by
  cases h with
  | nil => rfl
  | copy _ => exact hs
  | write hfree _ _ _ => exact absurd (hbefore.symm.trans hfree) (by decide)

theorem isJoined_reverse_append {old : Text} (before : Text)
    (h : headIs continuesName old.reverse = true) : headIs isJoined (old.reverse ++ before) = true := by
  cases hold : old.reverse with
  | nil =>
    rw [hold] at h
    cases h
  | cons c cs =>
    rw [hold] at h
    exact isJoined_of_continuesName h

/-- No name goes on from what is written into what follows it. -/
theorem apart {word old new : Text} (hkeeps : KeepsWord word old new)
    (hs : headIs continuesName s = false) (hrest : Rewritten writes (old.reverse ++ before) s t) :
    Apart new.reverse t := by
  cases hgoes : headIs continuesName new.reverse with
  | false => exact .inl hgoes
  | true => exact .inr (hrest.headIs_of_joined (isJoined_reverse_append before (hkeeps.ended hgoes)) hs)

/-- A rewriting adds no word that none of what it writes adds. `out` is what has been written; no
    name goes on behind it that does not go on behind what was read. -/
theorem mem_wordsFrom {word : Text} (hwrites : ∀ old new, writes old new → KeepsWord word old new)
    (h : Rewritten writes before s t) (out : Text)
    (hended : headIs continuesName out = true → headIs isJoined before = true)
    (hcut : headIs continuesName out = headIs continuesName before ∨ headIs continuesName s = false)
    (hword : word ∈ wordsFrom (headIs continuesName out) t) :
    word ∈ wordsFrom (headIs continuesName before) s := by
  induction h generalizing out with
  | nil => exact absurd hword List.not_mem_nil
  | @copy before s t c hrest ih =>
    have hsame : wordsFrom (headIs continuesName out) (c :: t) =
        wordsFrom (headIs continuesName before) (c :: t) := by
      rcases hcut with hsame | hother
      · rw [hsame]
      · rw [wordsFrom_other _ hother, wordsFrom_other _ hother]
    rw [hsame] at hword
    exact mem_wordsFrom_cons (fun hc => hrest.takeWhile_eq (isJoined_of_continuesName hc))
      (ih (c :: out) isJoined_of_continuesName (.inl rfl)) hword
  | @write before old new s t hfree hs hnew hrest ih =>
    have hkeeps := hwrites old new hnew
    have hout : headIs continuesName out = false := by
      refine Bool.eq_false_iff.mpr fun hgoes => ?_
      exact absurd ((hended hgoes).symm.trans hfree) (by decide)
    have hbehind : headIs continuesName (new.reverse ++ out) = headIs continuesName new.reverse := by
      cases new.reverse with
      | nil => exact hout
      | cons c cs => rfl
    have hapart := hrest.apart hkeeps hs
    have hrun : wordsFrom (headIs continuesName (new.reverse ++ out)) t = words t := by
      rw [hbehind]
      rcases hapart with hgoes | ht
      · rw [hgoes, words]
      · exact wordsFrom_of_headIs _ ht
    have hstep := ih (new.reverse ++ out)
      (fun hgoes => isJoined_reverse_append before (hkeeps.ended (hbehind ▸ hgoes))) (.inr hs)
    rw [hrun, wordsFrom_of_headIs _ hs] at hstep
    rw [hout] at hword
    change word ∈ words (new ++ t) at hword
    rw [words_append hapart] at hword
    rw [headIs_continuesName hfree]
    change word ∈ words (old ++ s)
    rw [words_append (.inr hs)]
    exact List.mem_append.mpr ((List.mem_append.mp hword).imp hkeeps.mem hstep)

theorem mem_words {word : Text} (hwrites : ∀ old new, writes old new → KeepsWord word old new)
    (h : Rewritten writes [] s t) (hword : word ∈ words t) : word ∈ words s :=
  h.mem_wordsFrom hwrites [] id (.inl rfl) hword

end Rewritten

/-- Every pass for a name rewrites its occurrences. -/
theorem rewritten_substituteFrom (name : Text) (written : Text → Text → Text) (before s : Text) :
    Rewritten (fun old new => old = name ∧ ∃ behind ahead, new = written behind ahead) before s
      (substituteFrom name written 0 before s) := by
  match s with
  | [] =>
    rw [substituteFrom]
    cases hoccurs : occursAt? name before [] with
    | none => exact .nil
    | some after =>
      obtain ⟨hs, hafter⟩ := of_occursAt? hoccurs
      obtain ⟨rfl, rfl⟩ := List.append_eq_nil_iff.mp hs.symm
      have hfree := free_of_occursAt? hoccurs
      have hwrite : Rewritten (fun old new => old = [] ∧ ∃ behind ahead, new = written behind ahead)
          before ([] ++ []) (written before [] ++ []) :=
        .write hfree hafter ⟨rfl, before, [], rfl⟩ .nil
      simpa using hwrite
  | c :: cs =>
    cases hoccurs : occursAt? name before (c :: cs) with
    | none =>
      rw [substituteFrom_of_none _ hoccurs]
      exact .copy (rewritten_substituteFrom name written (c :: before) cs)
    | some after =>
      obtain ⟨hs, hafter⟩ := of_occursAt? hoccurs
      have hfree := free_of_occursAt? hoccurs
      by_cases hname : name = []
      · subst hname
        rw [substituteFrom, hoccurs]
        obtain rfl : c :: cs = after := hs
        have hrest := rewritten_substituteFrom [] written (c :: before) cs
        change Rewritten _ before ([] ++ (c :: cs)) _
        exact .write hfree hafter ⟨rfl, before, _, rfl⟩ (.copy hrest)
      · rw [hs] at hoccurs ⊢
        rw [substituteFrom_some hname _ hoccurs]
        have hshorter : after.length < (c :: cs).length := by
          have hlength := congrArg List.length hs
          have hpos := List.length_pos_of_ne_nil hname
          rw [List.length_append] at hlength
          omega
        exact .write hfree hafter ⟨rfl, before, after, rfl⟩
          (rewritten_substituteFrom name written (name.reverse ++ before) after)
termination_by s.length
decreasing_by
  · exact Nat.lt_succ_self _
  · have hlength := congrArg List.length hs
    simp only [List.length_append, List.length_cons] at hlength ⊢
    omega
  · exact hshorter

theorem rewritten_stripFrom (r : Receptor) (before s : Text) :
    Rewritten (fun old new => ∃ group member, IsName member ∧ old = group ++ .char '.' :: member ∧
      new = r member) before s (stripFrom r 0 before s) := by
  induction before, s using memberInduction with
  | nil before => rw [stripFrom_nil]; exact .nil
  | other before c cs hc ih => rw [stripFrom_other _ _ hc]; exact .copy ih
  | name before name rest hname hrest h ih =>
    rw [stripFrom_name _ hname hrest h]
    exact ih.copies
  | member before group member rest hg hbefore hmember hstart hrest ih =>
    have hsplit : group ++ .char '.' :: (member ++ rest) = (group ++ .char '.' :: member) ++ rest := by
      simp
    rw [stripFrom_member _ hg hbefore hmember hstart hrest, hsplit]
    refine .write hbefore hrest ⟨group, member, hmember, rfl, rfl⟩ ?_
    simpa using ih

/-- The rewriting adds no such word to a text. -/
def AddsNo (word : Text) (f : Text → Text) : Prop := ∀ s, word ∈ words (f s) → word ∈ words s

section AddsNo

variable {word : Text} {f : Text → Text}

theorem AddsNo.mapPlain (hf : AddsNo word f) : AddsNo word (mapPlain f) := by
  intro code hword
  rw [words_mapPlain, List.mem_flatMap] at hword
  obtain ⟨part, hpart, hword⟩ := hword
  rw [words_segments, List.mem_flatMap]
  refine ⟨part, hpart, ?_⟩
  cases part with
  | literal text => exact hword
  | plain text => exact hf text hword

theorem addsNo_substitute {name : Text} {written : Text → Text → Text}
    (h : ∀ behind ahead, KeepsWord word name (written behind ahead)) :
    AddsNo word (substitute name written) := by
  intro s
  refine (rewritten_substituteFrom name written [] s).mem_words ?_
  rintro _ _ ⟨rfl, behind, ahead, rfl⟩
  exact h behind ahead

theorem addsNo_replaceOne {name written : Text} (h : KeepsWord word name written) :
    AddsNo word (replaceOne written name) := by
  refine (addsNo_substitute fun behind ahead => ?_).mapPlain
  split
  next => exact .refl word name
  next => exact h

theorem addsNo_strip {r : Receptor} (h : ∀ member, IsName member → KeepsWord word member (r member)) :
    AddsNo word (strip r) := by
  refine AddsNo.mapPlain fun s => (rewritten_stripFrom r [] s).mem_words ?_
  rintro _ _ ⟨group, member, hmember, rfl, rfl⟩
  exact .trans (.member hmember) (h member hmember)

end AddsNo

end ElementCompiler.Snippet
