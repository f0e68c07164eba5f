import ElementCompiler.Proofs.Snippet.RefPasses
import ElementCompiler.Proofs.Snippet.Relocation

set_option autoImplicit false

/-!
Snippets that are relocated: outside literals each of the names is led by a receptor or declared, and
no member is reached through its group.
-/

namespace ElementCompiler.Snippet

open Text

def SettledIn (names : List Text) (code : Text) : Prop :=
  ∀ run, .plain run ∈ segments code → Settled names [] run

def ReferenceFree (code : Text) : Prop := ∀ run, .plain run ∈ segments code → NoReference [] run

structure Relocated (names : List Text) (code : Text) : Prop where
  settled : SettledIn names code
  referenceFree : ReferenceFree code

section Empty

theorem settledIn_nil (names : List Text) : SettledIn names [] := by
  intro run hrun
  rw [segments] at hrun
  exact absurd hrun List.not_mem_nil

theorem relocated_nil (names : List Text) : Relocated names [] := by
  refine ⟨settledIn_nil names, fun run hrun => ?_⟩
  rw [segments] at hrun
  exact absurd hrun List.not_mem_nil

theorem settledIn_noNames (code : Text) : SettledIn [] code :=
  fun _ _ _ _ _ _ _ hname => absurd hname List.not_mem_nil

theorem SettledIn.of_mem {names fewer : List Text} {code : Text} (h : SettledIn names code)
    (hfewer : ∀ n ∈ fewer, n ∈ names) : SettledIn fewer code :=
  fun run hrun near rest name after hs hname => h run hrun near rest name after hs (hfewer name hname)

theorem Relocated.of_mem {names fewer : List Text} {code : Text} (h : Relocated names code)
    (hfewer : ∀ n ∈ fewer, n ∈ names) : Relocated fewer code :=
  ⟨h.settled.of_mem hfewer, h.referenceFree⟩

end Empty

section Members

variable {word : Text} {names kept : List Text} {code : Text}

theorem relocated_relocateMembers (hword : IsName word) (hgroup : word ∉ memberGroups)
    (hnames : Relocatable word (names ++ kept)) (h : SettledIn kept code) :
    Relocated (names ++ kept)
      (relocateMembers names (receptor word) (.before (receptor word)) code) := by
  have hfirst : Relocatable word names := hnames.of_mem fun n hn => List.mem_append_left kept hn
  rw [relocateMembers_eq hword hfirst]
  constructor
  · intro run hrun
    obtain ⟨before, hbefore, rfl⟩ := mem_segments_mapPlain (keepsRuns_relocateRun hword) hrun
    exact settled_relocateRun hword hnames (h before hbefore)
  · intro run hrun
    obtain ⟨before, _, rfl⟩ := mem_segments_mapPlain (keepsRuns_relocateRun hword) hrun
    exact noReference_relocateRun hword hgroup before

/-- Relocating names that are settled changes nothing. -/
theorem relocate_of_settledIn (hword : IsName word) (hnames : Relocatable word names)
    (h : SettledIn names code) : relocate (receptor word) names code = code := by
  rw [relocate_eq_relocateOnce hword hnames, relocateOnce]
  refine (mapPlain_congr (g := id) fun run hrun => ?_).trans (mapPlain_id code)
  exact placeReceptors_of_settled _ (fun _ => id) (Or.inl rfl) (h run hrun)

end Members

section Strip

variable {names : List Text} {r : Receptor} {code : Text}

theorem referenceFree_strip (hr : Leads memberGroups r) (code : Text) :
    ReferenceFree (strip r code) := by
  intro run hrun
  obtain ⟨before, _, rfl⟩ := mem_segments_mapPlain (keepsRuns_stripFrom hr) hrun
  exact noReference_stripFrom hr [] before [] rfl

theorem ReferenceFree.strip (h : ReferenceFree code) (r : Receptor) : strip r code = code :=
  (mapPlain_congr (g := id) fun run hrun => stripFrom_of_noReference r (h run hrun)).trans (mapPlain_id code)

theorem settledIn_strip (hr : Leads names r) (hnames : ∀ n ∈ names, IsName n)
    (h : SettledIn names code) : SettledIn names (strip r code) := by
  intro run hrun
  obtain ⟨before, hbefore, rfl⟩ := mem_segments_mapPlain (keepsRuns_stripFrom hr) hrun
  exact (moved_stripFrom hr [] before).settled hnames .nil (Or.inl rfl) (h before hbefore)

end Strip

section Refs

variable {name word field : Text} {names : List Text} {code : Text}

theorem joinsWords_current (hname : IsName name) : JoinsWords (name ++ ".current") name where
  head := by
    obtain ⟨c, cs, rfl⟩ := List.exists_cons_of_ne_nil hname.1
    exact hname.head
  pat := by
    have hcurrent : ∀ c ∈ ofString ".current", isJoined c = true := by decide
    exact List.forall_mem_append.mpr ⟨hname.isJoined, hcurrent⟩
  new := ⟨hname.1, hname.isJoined⟩

theorem settledIn_dropped (hname : IsName name) (hnames : ∀ n ∈ names, IsName n)
    (h : SettledIn names code) :
    SettledIn names (substitute (name ++ ".current") (fun _ _ => name) code) := by
  intro run hrun
  obtain ⟨before, hbefore, rfl⟩ := (joinsWords_current hname).mem_segments_substitute hrun
  have hcurrent : IsName (ofString "current") := ⟨by decide, by decide⟩
  exact (moved_cut hname hcurrent (by decide) [] before (Or.inl rfl)).settled hnames .nil (Or.inl rfl)
    (h before hbefore)

theorem settledIn_replaceOne (hword : IsName word) (hnames : Relocatable word (name :: names))
    (hfield : IsName field) (hdeclares : declares name.reverse = true → declares field.reverse = true)
    (h : SettledIn names code) :
    SettledIn (name :: names) (replaceOne (receptor word ++ field) name code) := by
  have hname := (hnames name List.mem_cons_self).1
  have hnot : word ∉ name :: names := fun hmem => (hnames word hmem).2 rfl
  have hmoved : ∀ run, Moved [name] names [] run
      (substitute name (writtenUnlessDeclared (receptor word ++ field) name) run) :=
    fun run => moved_substitute hname hword hnot hfield hdeclares [] run (Or.inl rfl)
  have hkeeps := keepsRuns_of_sameAhead fun run => (hmoved run).sameAhead
  intro run hrun
  obtain ⟨before, hbefore, rfl⟩ := mem_segments_mapPlain hkeeps hrun
  exact (hmoved before).settled (fun n hn => (hnames n hn).1) .nil (Or.inl rfl) (h before hbefore)

end Refs

end ElementCompiler.Snippet
