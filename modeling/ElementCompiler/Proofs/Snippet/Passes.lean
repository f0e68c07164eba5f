import ElementCompiler.Proofs.Snippet.SinglePass

set_option autoImplicit false

/-!
Passes in a row. However many passes are made, and whatever their order, they come to one pass for
the names of all of them.
-/

namespace ElementCompiler.Snippet

open Text

/-- Names that passes may be made for: none of them is the receptor's own word. -/
def Relocatable (word : Text) (names : List Text) : Prop := ∀ n ∈ names, IsName n ∧ n ≠ word

theorem Relocatable.append {word : Text} {names more : List Text} (h : Relocatable word names)
    (hmore : Relocatable word more) : Relocatable word (names ++ more) := by
  intro n hn
  rcases List.mem_append.mp hn with hn | hn
  · exact h n hn
  · exact hmore n hn

theorem Relocatable.tail {word name : Text} {names : List Text}
    (h : Relocatable word (name :: names)) : Relocatable word names :=
  fun n hn => h n (List.mem_cons_of_mem name hn)

theorem Relocatable.of_mem {word : Text} {names fewer : List Text} (h : Relocatable word names)
    (hsub : ∀ n ∈ fewer, n ∈ names) : Relocatable word fewer :=
  fun n hn => h n (hsub n hn)

theorem takesReceptor_congr {names names' : List Text} (h : ∀ n, n ∈ names ↔ n ∈ names')
    (before name after : Text) :
    takesReceptor names before name after = takesReceptor names' before name after := by
  have hmem : names.contains name = names'.contains name := by
    rw [Bool.eq_iff_iff, List.contains_iff_mem, List.contains_iff_mem, h name]
  rw [takesReceptor, takesReceptor, hmem]

/-- Only which names are given counts, not their order or how often they are given. -/
theorem placeReceptors_congr {names names' : List Text} (h : ∀ n, n ∈ names ↔ n ∈ names')
    (lead before s : Text) :
    placeReceptors lead names before s = placeReceptors lead names' before s := by
  induction s using nameInduction generalizing before with
  | nil => rw [placeReceptors_nil, placeReceptors_nil]
  | other c cs hc ih => rw [placeReceptors_other _ _ _ hc, placeReceptors_other _ _ _ hc, ih]
  | name name rest hname hrest ih =>
    rw [placeReceptors_name _ _ _ hname hrest, placeReceptors_name _ _ _ hname hrest,
      takesReceptor_congr h, ih]

theorem placeReceptors_noNames (lead before s : Text) : placeReceptors lead [] before s = s := by
  induction s using nameInduction generalizing before with
  | nil => rw [placeReceptors_nil]
  | other c cs hc ih => rw [placeReceptors_other _ _ _ hc, ih]
  | name name rest hname hrest ih =>
    rw [placeReceptors_name _ _ _ hname hrest, ih]
    rfl

theorem substitute_placeReceptors {word name : Text} (hword : IsName word)
    (hname : IsName name ∧ name ≠ word) (names : List Text) (run : Text) :
    substitute name (receptorUnlessDeclared (receptor word) name)
        (placeReceptors (receptor word) names [] run) =
      placeReceptors (receptor word) (names ++ [name]) [] run :=
  substituteFrom_placeReceptors hword hname.1 hname.2 names run [] [] .nil (Or.inl rfl)

/-- Passes over a run for some names and then for others are passes for all of them. -/
theorem placeReceptors_placeReceptors {word : Text} (hword : IsName word) {more : List Text}
    (hmore : Relocatable word more) (names : List Text) (run : Text) :
    placeReceptors (receptor word) more [] (placeReceptors (receptor word) names [] run) =
      placeReceptors (receptor word) (names ++ more) [] run := by
  induction more generalizing names run with
  | nil => rw [placeReceptors_noNames, List.append_nil]
  | cons name rest ih =>
    have hname := hmore name List.mem_cons_self
    have hfirst : ∀ s, substitute name (receptorUnlessDeclared (receptor word) name) s =
        placeReceptors (receptor word) [name] [] s := by
      intro s
      have h := substitute_placeReceptors hword hname [] s
      rwa [placeReceptors_noNames, List.nil_append] at h
    rw [← List.singleton_append, ← ih hmore.tail [name], ← hfirst,
      substitute_placeReceptors hword hname, ih hmore.tail, List.append_assoc]

theorem relocateOnce_noNames (lead code : Text) : relocateOnce lead [] code = code := by
  rw [relocateOnce]
  exact (mapPlain_congr (g := id) fun run _ => placeReceptors_noNames lead [] run).trans
    (mapPlain_id code)

theorem replaceOne_relocateOnce {word name : Text} (hword : IsName word)
    (hname : IsName name ∧ name ≠ word) (names : List Text) (code : Text) :
    replaceOne (receptor word ++ name) name (relocateOnce (receptor word) names code) =
      relocateOnce (receptor word) (names ++ [name]) code := by
  have hpass := mapPlain_mapPlain (keepsRuns_placeReceptors hword names)
    (substitute name (receptorUnlessDeclared (receptor word) name)) code
  rw [relocateOnce, relocateOnce]
  refine hpass.trans (mapPlain_congr fun run _ => ?_)
  exact substitute_placeReceptors hword hname names run

theorem relocate_relocateOnce {word : Text} (hword : IsName word) {names : List Text}
    (hnames : Relocatable word names) (done : List Text) (code : Text) :
    relocate (receptor word) names (relocateOnce (receptor word) done code) =
      relocateOnce (receptor word) (done ++ names) code := by
  induction names generalizing done with
  | nil => rw [List.append_nil]; rfl
  | cons name rest ih =>
    have hname := hnames name List.mem_cons_self
    have hempty : ¬ name.isEmpty = true := by simpa using hname.1.1
    rw [relocate, replaceNames, List.foldl_cons, if_neg hempty,
      replaceOne_relocateOnce hword hname]
    have hrest := ih hnames.tail (done ++ [name])
    rw [relocate, replaceNames, List.append_assoc] at hrest
    exact hrest

/-- One pass for each name, each over what the pass before it left, is a single pass over the
    snippet as it was. -/
theorem relocate_eq_relocateOnce {word : Text} (hword : IsName word) {names : List Text}
    (hnames : Relocatable word names) (code : Text) :
    relocate (receptor word) names code = relocateOnce (receptor word) names code := by
  have h := relocate_relocateOnce hword hnames [] code
  rwa [relocateOnce_noNames, List.nil_append] at h

theorem relocate_congr {word : Text} (hword : IsName word) {names names' : List Text}
    (hnames : Relocatable word names) (h : ∀ n, n ∈ names' ↔ n ∈ names) (code : Text) :
    relocate (receptor word) names' code = relocate (receptor word) names code := by
  have hnames' : Relocatable word names' := hnames.of_mem fun n hn => (h n).mp hn
  rw [relocate_eq_relocateOnce hword hnames', relocate_eq_relocateOnce hword hnames, relocateOnce,
    relocateOnce]
  exact mapPlain_congr fun run _ => placeReceptors_congr h _ _ _

theorem relocate_relocate {word : Text} (hword : IsName word) {names : List Text}
    (hnames : Relocatable word names) (code : Text) :
    relocate (receptor word) names (relocate (receptor word) names code) =
      relocate (receptor word) names code := by
  have hsame : ∀ n, n ∈ names ++ names ↔ n ∈ names := by simp
  rw [relocate_eq_relocateOnce hword hnames code, relocate_relocateOnce hword hnames,
    ← relocate_eq_relocateOnce hword (hnames.append hnames),
    relocate_congr hword hnames hsame, relocate_eq_relocateOnce hword hnames]

end ElementCompiler.Snippet
