import ElementCompiler.Proofs.Attempt
import ElementCompiler.Proofs.Distinct
import ElementCompiler.Proofs.Snippet.LiteralPasses

set_option autoImplicit false

/-!
Passes for a name that a snippet does not use. They leave the snippet as it is, so the name can be
added to the names of a relocation, or left out of them, wherever it stands among them.
-/

namespace ElementCompiler.Snippet

open Attempt Text

section Unused

variable {fields : List (Text × Text)} {names : List Text} {lead name code : Text}

theorem replaceOne_eq_self (written : Text) (h : ∀ run, .plain run ∈ segments code → uses run name = false) :
    replaceOne written name code = code :=
  (mapPlain_congr (g := id) fun run hrun => substitute_of_unused _ (h run hrun)).trans (mapPlain_id code)

theorem relocate_eq_self (lead : Text)
    (h : ∀ name ∈ names, name ≠ [] → ∀ run, .plain run ∈ segments code → uses run name = false) :
    relocate lead names code = code := by
  unfold relocate replaceNames
  induction names with
  | nil => rfl
  | cons name names ih =>
    rw [List.forall_mem_cons] at h
    have hfirst : (if name.isEmpty then code else replaceOne (lead ++ name) name code) = code := by
      split
      next => rfl
      next hne => exact replaceOne_eq_self _ (h.1 (by simpa using hne))
    rw [List.foldl_cons, hfirst, ih h.2]

theorem relocateRef_eq_self {field moved : Text} (hcurrent : uses code (name ++ ".current") = false)
    (hname : name ≠ [] → ∀ run, .plain run ∈ segments code → uses run name = false)
    (h : relocateRef lead name field (.str code) = .ok moved) : moved = code := by
  obtain ⟨dropped, hdropped, h⟩ := bind_eq_ok.mp h
  obtain ⟨parts, _, hdropped⟩ := bind_eq_ok.mp hdropped
  obtain ⟨text, htext, hdropped⟩ := bind_eq_ok.mp hdropped
  obtain rfl : code = text := Except.ok.inj htext
  obtain rfl := Except.ok.inj hdropped
  obtain rfl := Except.ok.inj h
  rw [substitute_of_unused _ hcurrent]
  split
  next => rfl
  next hne => exact replaceOne_eq_self _ (hname (by simpa using hne))

theorem relocateRefs_eq_self {code' : Json} (hcurrent : ∀ f ∈ fields, uses code (f.1 ++ ".current") = false)
    (hrefs : ∀ f ∈ fields, f.1 ≠ [] → ∀ run, .plain run ∈ segments code → uses run f.1 = false)
    (h : relocateRefs fields lead (.str code) = .ok code') : code' = .str code := by
  have heach : relocateEach lead fields (.str code) = .ok code' → code' = .str code := by
    clear h
    induction fields with
    | nil => exact fun h => (Except.ok.inj h).symm
    | cons f fields ih =>
      intro heach
      rw [List.forall_mem_cons] at hcurrent hrefs
      obtain ⟨moved, hmoved, hrest⟩ := bind_eq_ok.mp heach
      rw [relocateRef_eq_self hcurrent.1 hrefs.1 hmoved] at hrest
      exact ih hcurrent.2 hrefs.2 hrest
  unfold relocateRefs at h
  split at h
  next => exact heach h
  next => exact (Except.ok.inj h).symm

end Unused

section Inert

variable {name : Text}

theorem substituteFrom_unused (hname : IsName name) (written : Text → Text → Text) {before s : Text}
    (h : name ∉ wordsFrom (headIs continuesName before) s) :
    substituteFrom name written 0 before s = s := by
  induction s generalizing before with
  | nil => exact substituteFrom_nil written hname.head before
  | cons c cs ih =>
    cases hoccurs : occursAt? name before (c :: cs) with
    | none =>
      have hrest : name ∉ wordsFrom (headIs continuesName (c :: before)) cs :=
        fun hmem => h (mem_wordsFrom_tail _ hmem)
      rw [substituteFrom_of_none written hoccurs, ih hrest]
    | some after =>
      obtain ⟨hs, hafter⟩ := of_occursAt? hoccurs
      rw [hs, headIs_continuesName (free_of_occursAt? hoccurs)] at h
      refine absurd ?_ h
      change name ∈ words (name ++ after)
      rw [words_append (.inr hafter), words_name hname]
      exact List.mem_append_left _ (List.mem_singleton_self name)

theorem replaceOne_unused (hname : IsName name) (written : Text) {code : Text}
    (h : name ∉ words code) : replaceOne written name code = code := by
  refine (mapPlain_congr (g := id) fun run hrun => ?_).trans (mapPlain_id code)
  exact substituteFrom_unused hname _ fun hmem => h (words_of_mem_segments hrun name hmem)

end Inert

section Relocation

variable {lead name : Text} (hlead : IsName lead)
include hlead

theorem addsNo_relocate (hne : name ≠ lead) (names : List Text) :
    AddsNo name (relocate (receptor lead) names) := by
  induction names with
  | nil => exact fun _ => id
  | cons n ns ih =>
    intro code hword
    rw [relocate, replaceNames, List.foldl_cons] at hword
    have hrest := ih _ hword
    split at hrest
    next => exact hrest
    next hempty =>
      have hn : n ≠ [] := by simpa using hempty
      exact addsNo_replaceOne (.receptor hlead hne hn) code hrest

theorem addsNo_relocateMembers (hne : name ≠ lead) (names : List Text) :
    AddsNo name (relocateMembers names (receptor lead) (.before (receptor lead))) := by
  intro code hword
  refine addsNo_relocate hlead hne names.eraseDups code ?_
  exact addsNo_strip (fun member hmember => .receptor hlead hne hmember.1) _ hword

/-- A name that the code does not use need not be among those that it is relocated for. -/
theorem relocate_filter (hname : IsName name) (hne : name ≠ lead) (names : List Text) {code : Text}
    (h : name ∉ words code) :
    relocate (receptor lead) (names.filter (· != name)) code =
      relocate (receptor lead) names code := by
  induction names generalizing code with
  | nil => rfl
  | cons n ns ih =>
    have hcons : ∀ ms : List Text, relocate (receptor lead) (n :: ms) code =
        relocate (receptor lead) ms
          (if n.isEmpty then code else replaceOne (receptor lead ++ n) n code) := fun _ => rfl
    by_cases hn : n = name
    · subst hn
      have hempty : n.isEmpty = false := by simpa using hname.1
      rw [List.filter_cons_of_neg (by simp), ih h, hcons, hempty, if_neg Bool.false_ne_true,
        replaceOne_unused hname _ h]
    · rw [List.filter_cons_of_pos (by simpa using hn), hcons, hcons, ih]
      split
      next => exact h
      next hempty =>
        have hne' : n ≠ [] := by simpa using hempty
        exact fun hword => h (addsNo_replaceOne (.receptor hlead hne hne') code hword)

theorem relocate_unused (hname : IsName name) (hne : name ≠ lead) {names names' : List Text}
    (hsame : names'.filter (· != name) = names.filter (· != name)) {code : Text}
    (h : name ∉ words code) :
    relocate (receptor lead) names' code = relocate (receptor lead) names code := by
  rw [← relocate_filter hlead hname hne names' h, hsame, relocate_filter hlead hname hne names h]

theorem relocateMembers_unused (hname : IsName name) (hne : name ≠ lead) {names names' : List Text}
    (hsame : names'.filter (· != name) = names.filter (· != name)) (r : Receptor) {code : Text}
    (h : name ∉ words code) :
    relocateMembers names' (receptor lead) r code = relocateMembers names (receptor lead) r code := by
  have hdups : names'.eraseDups.filter (· != name) = names.eraseDups.filter (· != name) := by
    rw [← filter_eraseDups, hsame, filter_eraseDups]
  rw [relocateMembers, relocate_unused hlead hname hne hdups h, relocateMembers]

end Relocation

end ElementCompiler.Snippet
