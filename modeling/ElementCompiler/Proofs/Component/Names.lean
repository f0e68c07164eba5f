import ElementCompiler.Component.Names
import ElementCompiler.Proofs.Component.Texts
import ElementCompiler.Proofs.Text.Trim

set_option autoImplicit false

/-!
The names that a component with texts uses are found: its snippets can be searched for props and
imports, and its nodes for refs and tags.
-/

namespace ElementCompiler

open Attempt Text

def ContextSpec.WritesTexts (context : ContextSpec) : Prop :=
  ∀ w ∈ context.writes, w.ref.IsOptionalText ∧ ∀ es, w.value = some es → ∀ s ∈ es, s.2.code.IsText

namespace Component

variable {c : Component}

theorem nodeCodes_text (hc : c.HasTexts) :
    ∀ code ∈ c.nodes.flatMap Node.codes, ∃ j : Json, code = some j ∧ j.IsText := by
  intro code hcode
  obtain ⟨n, hn, hcode⟩ := List.mem_flatMap.mp hcode
  obtain ⟨b, hb, rfl⟩ := List.mem_map.mp hcode
  obtain ⟨x, hx, htexts⟩ := (hc.nodes n hn).bindings b hb
  exact ⟨x.code, by rw [hx]; rfl, htexts.code⟩

/-- What holds of references and values that are written holds of all code that is written. -/
theorem forall_writeCodes {p : Json → Prop} {writes : List ContextWrite} (h : ∀ w ∈ writes,
    (w.ref.isGiven = true → p w.ref) ∧ ∀ es, w.value = some es → ∀ s ∈ es, p s.2.code) :
    ∀ code ∈ writes.flatMap writeCodes, p code := by
  intro code hcode
  obtain ⟨w, hw, hcode⟩ := List.mem_flatMap.mp hcode
  obtain ⟨href, hvalue⟩ := h w hw
  rcases List.mem_append.mp hcode with hcode | hcode
  · split at hcode
    next hgiven =>
      rw [List.mem_singleton.mp hcode]
      exact href hgiven
    next => exact absurd hcode List.not_mem_nil
  · cases hes : w.value with
    | none =>
      rw [hes] at hcode
      exact absurd hcode List.not_mem_nil
    | some es =>
      rw [hes, Option.getD_some, stateCodes, Entries.values, List.map_map] at hcode
      obtain ⟨s, hs, rfl⟩ := List.mem_map.mp hcode
      exact hvalue es hes s hs

/-- What holds of the code of each part of a component holds of its snippets. -/
theorem forall_snippets {q : Option Json → Prop} (hnodes : ∀ code ∈ c.nodes.flatMap Node.codes, q code)
    (hstate : ∀ s ∈ c.state, q (some s.2.code)) (hhooks : ∀ code ∈ c.hooks.codes, q (some code))
    (hrefs : ∀ r ∈ c.refs, r.2.argument.isGiven = true → q (some r.2.argument))
    (hwrites : ∀ w ∈ c.context.writes, (w.ref.isGiven = true → q (some w.ref)) ∧
      ∀ es, w.value = some es → ∀ s ∈ es, q (some s.2.code)) : ∀ code ∈ c.snippets, q code := by
  intro code hcode
  rw [snippets, List.mem_append] at hcode
  rcases hcode with hcode | hcode
  · exact hnodes code hcode
  · obtain ⟨j, hj, rfl⟩ := List.mem_map.mp hcode
    simp only [List.mem_append] at hj
    rcases hj with (((((hj | hj) | hj) | hj) | hj) | hj) | hj
    · rw [stateCodes, Entries.values, List.map_map] at hj
      obtain ⟨s, hs, rfl⟩ := List.mem_map.mp hj
      exact hstate s hs
    · exact hhooks j (by simp [Hooks.codes, hj])
    · exact hhooks j (by simp [Hooks.codes, hj])
    · exact hhooks j (by simp [Hooks.codes, hj])
    · exact hhooks j (List.mem_append_right _ hj)
    · obtain ⟨r, hr, hj⟩ := List.mem_filterMap.mp hj
      obtain ⟨e, he, rfl⟩ := List.mem_map.mp hr
      rw [initialValue?] at hj
      split at hj
      next hgiven =>
        obtain rfl := Option.some.inj hj
        exact hrefs e he hgiven
      next => cases hj
    · exact forall_writeCodes (p := fun j => q (some j)) hwrites j hj

theorem snippets_text (hc : c.HasTexts) (hwrites : c.context.WritesTexts) :
    ∀ code ∈ c.snippets, ∃ j : Json, code = some j ∧ j.IsText := by
  refine forall_snippets (nodeCodes_text hc) (fun s hs => ⟨_, rfl, hc.state s hs⟩)
    (fun code hcode => ⟨_, rfl, hc.hooks code hcode⟩)
    (fun r hr hgiven => ⟨_, rfl, (hc.refs r hr).isText hgiven⟩) fun w hw => ?_
  obtain ⟨href, hvalue⟩ := hwrites w hw
  exact ⟨fun hgiven => ⟨_, rfl, href.isText hgiven⟩, fun es hes s hs => ⟨_, rfl, hvalue es hes s hs⟩⟩

theorem exists_codeProps {codes : List (Option Json)}
    (h : ∀ code ∈ codes, ∃ j : Json, code = some j ∧ j.IsText) :
    ∃ names, codeProps codes = .ok names := by
  induction codes with
  | nil => exact ⟨[], rfl⟩
  | cons code codes ih =>
    obtain ⟨⟨j, rfl, s, rfl⟩, hrest⟩ := List.forall_mem_cons.mp h
    exact exists_bind ⟨s, rfl⟩ fun text _ => exists_bind (ih hrest) fun rest _ => ⟨_, rfl⟩

theorem mem_of_mem_distinct {xs : List Json} : ∀ x ∈ Json.distinct xs, x ∈ xs := by
  have hfold : ∀ (xs seen : List Json), ∀ x ∈ xs.foldl (fun seen x =>
      if seen.any (Json.same x) then seen else seen ++ [x]) seen, x ∈ seen ∨ x ∈ xs := by
    intro xs
    induction xs with
    | nil => exact fun seen x hx => Or.inl hx
    | cons y ys ih =>
      intro seen x hx
      rcases ih _ x hx with hx | hx
      · dsimp only at hx
        split at hx
        next => exact Or.inl hx
        next =>
          rcases List.mem_append.mp hx with hx | hx
          · exact Or.inl hx
          · exact Or.inr (List.mem_cons.mpr (Or.inl (List.mem_singleton.mp hx)))
      · exact Or.inr (List.mem_cons_of_mem y hx)
  intro x hx
  exact (hfold xs [] x hx).resolve_left List.not_mem_nil

theorem exists_propNames (hc : c.HasTexts) (hwrites : c.context.WritesTexts)
    (hprops : ∀ p ∈ c.props, p.IsText) :
    ∃ names, c.propNames = .ok names ∧ ∀ name ∈ names, name.IsText := by
  obtain ⟨read, hread⟩ := exists_codeProps (snippets_text hc hwrites)
  have hkeys : c.props.all Json.isKey = true := by
    rw [List.all_eq_true]
    intro p hp
    obtain ⟨s, rfl⟩ := hprops p hp
    rfl
  refine ⟨Json.distinct (c.props ++ read.map .str), ?_, fun name hname => ?_⟩
  · rw [propNames, if_pos hkeys, hread]
    rfl
  · rcases List.mem_append.mp (mem_of_mem_distinct name hname) with hname | hname
    · exact hprops name hname
    · obtain ⟨s, _, rfl⟩ := List.mem_map.mp hname
      exact ⟨s, rfl⟩

theorem exists_refNames {ns : List Node} (h : ∀ n ∈ ns, n.HasTexts) :
    ∃ names, refNames ns = .ok names ∧ ∀ name ∈ names, isBlankText name = false := by
  induction ns with
  | nil => exact ⟨[], rfl, fun name hname => absurd hname List.not_mem_nil⟩
  | cons n ns ih =>
    obtain ⟨hn, hrest⟩ := List.forall_mem_cons.mp h
    obtain ⟨names, hnames, hink⟩ := ih hrest
    rw [refNames]
    split
    next => exact ⟨names, hnames, hink⟩
    next b hb =>
      obtain ⟨s, hs⟩ := (hn.binding? hb).code
      rw [hs, Json.textOr_str, ok_bind, hnames, ok_bind]
      by_cases hempty : (trim s).isEmpty = true
      · exact ⟨names, by rw [if_pos hempty]; rfl, hink⟩
      · refine ⟨trim s :: names, by rw [if_neg hempty]; rfl, List.forall_mem_cons.mpr ⟨?_, hink⟩⟩
        rw [isBlankText_trim, ← isEmpty_trim]
        simpa using hempty

/-- The refs of elements are found, and none of them is blank. -/
theorem exists_domRefs (hc : c.HasTexts) :
    ∃ names, c.domRefs = .ok names ∧ ∀ name ∈ names, isBlankText name = false := by
  obtain ⟨names, hnames, hink⟩ := exists_refNames hc.nodes
  refine ⟨names.eraseDups, by rw [domRefs, hnames]; rfl, fun name hname => ?_⟩
  exact hink name (List.mem_eraseDups.mp hname)

theorem exists_componentsUsed (hc : c.HasTexts) : ∃ tags, c.componentsUsed = .ok tags := by
  refine exists_bind (exists_mapM fun n hn => ?_) fun tags _ => ⟨_, rfl⟩
  obtain ⟨s, hs⟩ := (hc.nodes n hn).name
  rw [hs, componentTag]
  split <;> exact ⟨_, rfl⟩

theorem exists_bindingCodes (hc : c.HasTexts) :
    ∃ codes, c.bindingCodes = .ok codes ∧ ∀ code ∈ codes, code.IsText :=
  exists_mapM_forall fun code hcode => by
    obtain ⟨j, rfl, hj⟩ := nodeCodes_text hc code hcode
    exact ⟨j, rfl, hj⟩

theorem exists_isUsedIn (name : Text) {codes : List Json} (h : ∀ code ∈ codes, code.IsText) :
    ∃ used, isUsedIn name codes = .ok used := by
  induction codes with
  | nil => exact ⟨false, rfl⟩
  | cons code codes ih =>
    obtain ⟨⟨s, rfl⟩, hrest⟩ := List.forall_mem_cons.mp h
    rw [isUsedIn, Json.textOr_str, ok_bind]
    split
    next => exact ⟨true, rfl⟩
    next => exact ih hrest

theorem exists_usedImports (tags : List Text) {codes : List Json}
    (hcodes : ∀ code ∈ codes, code.IsText) {keys : List Key} (hkeys : ∀ k ∈ keys, ∃ s, k = .text s)
    (found : List Text) : ∃ names, usedImports tags codes found keys = .ok names := by
  induction keys generalizing found with
  | nil => exact ⟨found, rfl⟩
  | cons key keys ih =>
    obtain ⟨⟨s, rfl⟩, hrest⟩ := List.forall_mem_cons.mp hkeys
    rw [usedImports]
    split
    next => exact ih hrest found
    next =>
      refine exists_bind (exists_isUsedIn s hcodes) fun used _ => ?_
      split
      next => exact ih hrest _
      next => exact ih hrest found

theorem exists_customImports (hc : c.HasTexts)
    (himports : ∀ d ∈ c.imports, ∀ k ∈ Entries.keys d.imports, ∃ s, k = .text s) :
    ∃ names, c.customImports = .ok names := by
  obtain ⟨codes, hcodes, htexts⟩ := exists_bindingCodes hc
  rw [customImports, hcodes, ok_bind]
  refine exists_bind (exists_componentsUsed hc) fun tags _ => exists_usedImports tags htexts ?_ []
  intro key hkey
  obtain ⟨d, hd, hkey⟩ := List.mem_flatMap.mp hkey
  exact himports d hd key hkey

end Component
end ElementCompiler
