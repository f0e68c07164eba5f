import ElementCompiler.Module.Members
import ElementCompiler.Proofs.Snippet.Settled

set_option autoImplicit false

/-!
Relocation as a whole: names first, then references through a group. Stripping moves no name into a
place where it would take a receptor, so a second relocation finds nothing to do.
-/

namespace ElementCompiler.Snippet

open Text

def relocateRun (word : Text) (names : List Text) (run : Text) : Text :=
  stripFrom (.before (receptor word)) 0 [] (placeReceptors (receptor word) names [] run)

section

variable {word : Text} {names : List Text}

theorem keepsRuns_relocateRun (hword : IsName word) : KeepsRuns (relocateRun word names) :=
  have hleads : Leads [] (.before (receptor word)) := leads_before hword List.not_mem_nil
  (keepsRuns_stripFrom hleads).comp (keepsRuns_placeReceptors hword names)

theorem noReference_relocateRun (hword : IsName word) (hgroup : word ∉ memberGroups) (run : Text) :
    NoReference [] (relocateRun word names run) :=
  noReference_stripFrom (leads_before hword hgroup) [] _ [] rfl

/-- Relocation settles its names, and what was settled stays so. -/
theorem settled_relocateRun (hword : IsName word) {kept : List Text}
    (hnames : Relocatable word (names ++ kept)) {run : Text} (h : Settled kept [] run) :
    Settled (names ++ kept) [] (relocateRun word names run) := by
  have hall : ∀ n ∈ names ++ kept, IsName n := fun n hn => (hnames n hn).1
  have hnot : word ∉ names ++ kept := fun hmem => (hnames word hmem).2 rfl
  have hplaced := (moved_placeReceptors hword hnot [] run).settled hall .nil (Or.inl rfl) h
  exact (moved_stripFrom (leads_before hword hnot) [] _).settled hall .nil (Or.inl rfl) hplaced

theorem relocateRun_relocateRun (hword : IsName word) (hgroup : word ∉ memberGroups)
    (hnames : Relocatable word names) (run : Text) :
    relocateRun word names (relocateRun word names run) = relocateRun word names run := by
  have hsettled : Settled names [] (relocateRun word names run) := by
    have hnone : Settled [] [] run := fun _ _ _ _ _ hn => absurd hn List.not_mem_nil
    have happend : Settled (names ++ []) [] (relocateRun word names run) :=
      settled_relocateRun hword (by simpa using hnames) hnone
    rwa [List.append_nil] at happend
  calc relocateRun word names (relocateRun word names run)
      = stripFrom (.before (receptor word)) 0 []
          (placeReceptors (receptor word) names [] (relocateRun word names run)) := rfl
    _ = stripFrom (.before (receptor word)) 0 [] (relocateRun word names run) := by
        rw [placeReceptors_of_settled _ (fun _ => id) (Or.inl rfl) hsettled]
    _ = relocateRun word names run :=
        stripFrom_of_noReference _ (noReference_relocateRun hword hgroup run)

theorem relocateMembers_eq (hword : IsName word) (hnames : Relocatable word names) (code : Text) :
    relocateMembers names (receptor word) (.before (receptor word)) code =
      mapPlain (relocateRun word names) code := by
  have hsame : ∀ n, n ∈ names.eraseDups ↔ n ∈ names := fun n => List.mem_eraseDups
  rw [relocateMembers, relocate_congr hword hnames hsame, relocate_eq_relocateOnce hword hnames,
    relocateOnce, strip, mapPlain_mapPlain (keepsRuns_placeReceptors hword names)]
  rfl

end

/-- Relocation behind `this.` does not depend on the order of its passes: it is one pass over the
    snippet as it was, the same for every list of the same names, and done when done once. With the
    references through groups relocated as well it is still done when done once, and leaves none of
    them outside literals. -/
theorem relocation_is_one_pass {names : List Text}
    (hnames : ∀ n ∈ names, IsName n ∧ n ≠ "this") (code : Text) :
    relocate Module.instanceLead names code = relocateOnce Module.instanceLead names code ∧
      (∀ names' : List Text, (∀ n, n ∈ names' ↔ n ∈ names) →
        relocate Module.instanceLead names' code = relocate Module.instanceLead names code) ∧
      relocate Module.instanceLead names (relocate Module.instanceLead names code) =
        relocate Module.instanceLead names code ∧
      let rewritten := relocateMembers names Module.instanceLead (.before Module.instanceLead) code
      relocateMembers names Module.instanceLead (.before Module.instanceLead) rewritten = rewritten ∧
        ∀ run, .plain run ∈ segments rewritten → NoReference [] run := by
  have hword : IsName "this" := by
    unfold IsName
    decide
  have hgroup : ofString "this" ∉ memberGroups := by decide
  have hlead : Module.instanceLead = receptor "this" := rfl
  have hkeeps : KeepsRuns (relocateRun (ofString "this") names) := keepsRuns_relocateRun hword
  rw [hlead]
  refine ⟨relocate_eq_relocateOnce hword hnames code,
    fun names' h => relocate_congr hword hnames h code, relocate_relocate hword hnames code, ?_, ?_⟩
  · rw [relocateMembers_eq hword hnames, relocateMembers_eq hword hnames, mapPlain_mapPlain hkeeps]
    exact mapPlain_congr fun run _ => relocateRun_relocateRun hword hgroup hnames run
  · intro run hrun
    rw [relocateMembers_eq hword hnames] at hrun
    obtain ⟨before, _, rfl⟩ := mem_segments_mapPlain hkeeps hrun
    exact noReference_relocateRun hword hgroup before

theorem relocation_is_one_pass_count :
    (∀ n ∈ [ofString "count"], IsName n ∧ n ≠ "this") ∧
      relocate Module.instanceLead ["count"] "f('count', count, {count: state.count})" =
        relocateOnce Module.instanceLead ["count"] "f('count', count, {count: state.count})" := by
  have hnames : ∀ n ∈ [ofString "count"], IsName n ∧ n ≠ "this" := by
    unfold IsName
    decide
  exact ⟨hnames, (relocation_is_one_pass hnames _).1⟩

end ElementCompiler.Snippet
