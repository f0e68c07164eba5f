import ElementCompiler.Proofs.Component.Refs

set_option autoImplicit false

/-!
A component with one more state entry. A visit takes the entries of the state one by one, so the one
that is inserted is visited where it stands, and everything else as it is without it.
-/

namespace ElementCompiler

open Attempt

namespace Visitor

section Entries

variable {α β : Type} {f : Text → α → Attempt β} {xs ys : Entries α} {zs : Entries β}

/-- The entries before a place and those after it are visited by themselves. -/
theorem mapEntries_append : mapEntries f (xs ++ ys) = .ok zs ↔
    ∃ xs' ys', mapEntries f xs = .ok xs' ∧ mapEntries f ys = .ok ys' ∧ zs = xs' ++ ys' := by
  simp only [mapEntries_eq_ok]
  constructor
  · intro h
    have hsplit := List.forall₂_take_append zs xs ys h.flip
    have hrest := List.forall₂_drop_append zs xs ys h.flip
    exact ⟨_, _, hsplit.flip, hrest.flip, (List.take_append_drop xs.length zs).symm⟩
  · rintro ⟨xs', ys', hxs, hys, rfl⟩
    exact List.rel_append hxs hys

theorem mapEntries_insert {key : Text} {a : α} {b : β} (hstep : f key a = .ok b)
    (h : mapEntries f (xs ++ ys) = .ok zs) : ∃ xs' ys', zs = xs' ++ ys' ∧ xs'.length = xs.length ∧
      mapEntries f (xs ++ (key, a) :: ys) = .ok (xs' ++ (key, b) :: ys') := by
  obtain ⟨xs', ys', hxs, hys, rfl⟩ := mapEntries_append.mp h
  have hrest : mapEntries f ((key, a) :: ys) = .ok ((key, b) :: ys') := by
    rw [mapEntries, hstep, ok_bind, hys]
    rfl
  exact ⟨xs', ys', rfl, (mapEntries_eq_ok.mp hxs).length_eq.symm,
    mapEntries_append.mpr ⟨xs', _, hxs, hrest, rfl⟩⟩

end Entries

variable {v v' : Visitor Attempt} {c c' : Component}

theorem visit_eq_ok : visit v c = .ok c' ↔ ∃ hooks state refs children,
    visitHooks v c.hooks = .ok hooks ∧ mapEntries (fun _ => visitState v) c.state = .ok state ∧
      mapEntries (fun _ => visitRef v) c.refs = .ok refs ∧ visitNodes v c.children = .ok children ∧
      c' = { c with hooks, state, refs, children } := by
  rw [visit]
  simp only [bind_eq_ok, exists_and_left, pure, Except.pure, Except.ok.injEq, eq_comm (a := c')]

/-- One more state entry is visited where it stands. -/
theorem visit_insert {before after : Entries StateValue} (hstate : c.state = before ++ after)
    (name : Text) {s s' : StateValue} (hstep : visitState v s = .ok s') (h : visit v c = .ok c') :
    ∃ before' after', c'.state = before' ++ after' ∧ before'.length = before.length ∧
      visit v { c with state := before ++ (name, s) :: after } =
        .ok { c' with state := before' ++ (name, s') :: after' } := by
  obtain ⟨hooks, state, refs, children, hhooks, hentries, hrefs, hchildren, rfl⟩ := visit_eq_ok.mp h
  rw [hstate] at hentries
  have hfirst : (fun _ => visitState v : Text → StateValue → Attempt StateValue) name s = .ok s' :=
    hstep
  obtain ⟨before', after', rfl, hlength, hinserted⟩ := mapEntries_insert hfirst hentries
  exact ⟨before', after', rfl, hlength,
    visit_eq_ok.mpr ⟨hooks, _, refs, children, hhooks, hinserted, hrefs, hchildren, rfl⟩⟩

section Congruence

mutual

theorem visitNode_congr (hbinding : v'.binding = v.binding) (hproperty : v'.property = v.property)
    (n : Node) : visitNode v' n = visitNode v n := by
  match n with
  | ⟨name, properties, bindings, children, scope, elseBranch, metadata⟩ =>
    rw [visitNode, visitNode, hbinding, hproperty, visitBranch_congr hbinding hproperty elseBranch,
      visitNodes_congr hbinding hproperty children]

theorem visitBranch_congr (hbinding : v'.binding = v.binding)
    (hproperty : v'.property = v.property) (branch : Option Node) :
    visitBranch v' branch = visitBranch v branch := by
  match branch with
  | none => rfl
  | some n => rw [visitBranch, visitBranch, visitNode_congr hbinding hproperty n]

theorem visitNodes_congr (hbinding : v'.binding = v.binding) (hproperty : v'.property = v.property)
    (ns : List Node) : visitNodes v' ns = visitNodes v ns := by
  match ns with
  | [] => rfl
  | n :: rest =>
    rw [visitNodes, visitNodes, visitNode_congr hbinding hproperty n,
      visitNodes_congr hbinding hproperty rest]

end

theorem mapOption_congr {α β : Type} {f g : α → Attempt β} {o : Option α}
    (h : ∀ a ∈ o.toList, g a = f a) : mapOption g o = mapOption f o := by
  cases o with
  | none => rfl
  | some a => rw [mapOption, mapOption, h a (List.mem_singleton_self a)]

theorem visitUpdates_congr {us : List UpdateHook} (hdeps : v'.deps = v.deps)
    (h : ∀ code ∈ us.map UpdateHook.code, v'.hook code = v.hook code) :
    visitUpdates v' us = visitUpdates v us := by
  induction us with
  | nil => rfl
  | cons u us ih =>
    rw [List.map_cons, List.forall_mem_cons] at h
    rw [visitUpdates, visitUpdates, visitUpdate, visitUpdate, h.1, hdeps, ih h.2]

/-- Two visits of hooks are one when their steps agree on the code that is there. -/
theorem visitHooks_congr {hooks : Hooks} (hdeps : v'.deps = v.deps)
    (h : ∀ code ∈ hooks.codes, v'.hook code = v.hook code) :
    visitHooks v' hooks = visitHooks v hooks := by
  simp only [Hooks.codes, List.forall_mem_append] at h
  obtain ⟨⟨⟨hinit, hmount⟩, hunmount⟩, hupdates⟩ := h
  rw [visitHooks, visitHooks, mapOption_congr hinit, mapOption_congr hmount,
    mapOption_congr hunmount, visitUpdates_congr hdeps hupdates]

end Congruence

end Visitor

/-- One more state entry is relocated where it stands. -/
theorem mapRefs_insert {c c' : Component} {domRefs : List Text} {lead : Text}
    (h : (c.mapRefs domRefs lead).toAttempt = .ok c')
    (hplain : ∀ f ∈ c.refFields domRefs, CodePoint.char '\\' ∉ f.1)
    {before after : Entries StateValue} (hstate : c.state = before ++ after) (name : Text)
    {s : StateValue} (hs : s.code.IsText) : ∃ before' after' s', c'.state = before' ++ after' ∧
      before'.length = before.length ∧ s'.code.IsText ∧
      ((Component.mapRefs { c with state := before ++ (name, s) :: after } domRefs lead).toAttempt =
        .ok { c' with state := before' ++ (name, s') :: after' }) := by
  have hsame : Component.refFields { c with state := before ++ (name, s) :: after } domRefs =
      c.refFields domRefs := rfl
  by_cases hfields : c.refFields domRefs = []
  · rw [mapRefs_noFields hfields] at h
    obtain rfl := Except.ok.inj h
    exact ⟨before, after, s, hstate, rfl, hs, mapRefs_noFields (hsame.trans hfields)⟩
  · rw [mapRefs_toAttempt domRefs hfields] at h
    obtain ⟨code, hcode⟩ : ∃ code, Snippet.relocateRefs (c.refFields domRefs) lead s.code = .ok code :=
      (Snippet.exists_relocateRefs (.inr hs)).mpr fun _ => Snippet.areTemplates_of_plain hplain
    obtain ⟨before', after', hstate', hlength, hvisit⟩ := Visitor.visit_insert hstate name
      (Visitor.visitState_eq_ok.mpr ⟨code, hcode, rfl⟩) h
    refine ⟨before', after', { s with code }, hstate', hlength,
      Snippet.relocateRefs_isText hcode hs, ?_⟩
    rw [mapRefs_toAttempt domRefs (hsame ▸ hfields)]
    exact hvisit

end ElementCompiler
