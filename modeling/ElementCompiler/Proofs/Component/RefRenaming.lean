import ElementCompiler.Proofs.Component.InsertedState
import ElementCompiler.Proofs.Component.Props
import ElementCompiler.Proofs.Snippet.RefRenaming
import Mathlib.Data.List.Nodup

set_option autoImplicit false

/-!
The refs of a component renamed at once. A visit whose steps all go through is a visit that cannot
fail, and renaming depends on which refs there are and not on their order; so `mapRefs` is one
renaming of every snippet, whatever the order in which refs are declared or found on elements.
-/

namespace ElementCompiler

open Attempt Text

namespace Visitor

variable {v : Visitor Attempt} {w : Visitor Id}

section Entries

variable {α β : Type}

theorem mapEntries_total {f : Text → α → Attempt β} {g : Text → α → Id β} {es : Entries α}
    (h : ∀ e ∈ es, f e.1 e.2 = .ok (g e.1 e.2)) : mapEntries f es = .ok (mapEntries g es) := by
  induction es with
  | nil => rfl
  | cons e es ih =>
    rw [List.forall_mem_cons] at h
    rw [mapEntries, h.1, ok_bind, ih h.2]
    rfl

theorem mapOption_total {f : α → Attempt β} {g : α → Id β} {o : Option α}
    (h : ∀ a ∈ o.toList, f a = .ok (g a)) : mapOption f o = .ok (mapOption g o) := by
  cases o with
  | none => rfl
  | some a =>
    rw [mapOption, h a (List.mem_singleton_self a)]
    rfl

theorem mapEntries_eq_map (g : Text → α → Id β) (es : Entries α) :
    mapEntries g es = es.map fun e => (e.1, g e.1 e.2) := by
  induction es with
  | nil => rfl
  | cons e es ih => exact congrArg ((e.1, g e.1 e.2) :: ·) ih

theorem mapEntries_perm {g : Text → α → Id β} {es es' : Entries α} (h : es.Perm es') :
    List.Perm (mapEntries g es : Entries β) (mapEntries g es' : Entries β) := by
  rw [mapEntries_eq_map, mapEntries_eq_map]
  exact h.map _

end Entries

/-- The steps go through on a node, the nodes below it apart. -/
def TotalOn (v : Visitor Attempt) (w : Visitor Id) (n : Node) : Prop :=
  (∀ b ∈ n.bindings, v.binding b.1 b.2 = .ok (w.binding b.1 b.2)) ∧
    ∀ p ∈ n.properties, v.property p.2 = .ok (w.property p.2)

mutual

theorem visitNode_total {n : Node} (h : ∀ m ∈ n.subtree, TotalOn v w m) :
    visitNode v n = .ok (visitNode w n) := by
  match n with
  | ⟨name, properties, bindings, children, scope, elseBranch, metadata⟩ =>
    rw [Node.subtree, List.forall_mem_cons, List.forall_mem_append] at h
    obtain ⟨⟨hbindings, hproperties⟩, hbranch, hchildren⟩ := h
    rw [visitNode, mapEntries_total hbindings, ok_bind,
      mapEntries_total (g := fun _ => w.property) hproperties, ok_bind, visitBranch_total hbranch,
      ok_bind, visitNodes_total hchildren]
    rfl

theorem visitBranch_total {branch : Option Node} (h : ∀ m ∈ Node.branchNodes branch, TotalOn v w m) :
    visitBranch v branch = .ok (visitBranch w branch) := by
  match branch with
  | none => rfl
  | some n =>
    rw [visitBranch, visitNode_total h]
    rfl

theorem visitNodes_total {ns : List Node} (h : ∀ m ∈ Node.subtrees ns, TotalOn v w m) :
    visitNodes v ns = .ok (visitNodes w ns) := by
  match ns with
  | [] => rfl
  | n :: rest =>
    rw [Node.subtrees, List.forall_mem_append] at h
    rw [visitNodes, visitNode_total h.1, ok_bind, visitNodes_total h.2]
    rfl

end

theorem visitUpdates_total {us : List UpdateHook}
    (hcode : ∀ code ∈ us.map UpdateHook.code, v.hook code = .ok (w.hook code))
    (hdeps : ∀ deps, v.deps deps = .ok (w.deps deps)) :
    visitUpdates v us = .ok (visitUpdates w us) := by
  induction us with
  | nil => rfl
  | cons u us ih =>
    rw [List.map_cons, List.forall_mem_cons] at hcode
    have hfirst : visitUpdate v u = .ok (visitUpdate w u) := by
      rw [visitUpdate, hcode.1, ok_bind, hdeps]
      rfl
    rw [visitUpdates, hfirst, ok_bind, ih hcode.2]
    rfl

theorem visitHooks_total {hooks : Hooks} (hcode : ∀ code ∈ hooks.codes, v.hook code = .ok (w.hook code))
    (hdeps : ∀ deps, v.deps deps = .ok (w.deps deps)) : visitHooks v hooks = .ok (visitHooks w hooks) := by
  simp only [Hooks.codes, List.forall_mem_append] at hcode
  obtain ⟨⟨⟨hinit, hmount⟩, hunmount⟩, hupdates⟩ := hcode
  rw [visitHooks, mapOption_total hinit, ok_bind, mapOption_total hmount, ok_bind,
    mapOption_total hunmount, ok_bind, visitUpdates_total hupdates hdeps]
  rfl

/-- A visit whose steps all go through is a visit that cannot fail. -/
theorem visit_total {c : Component} (hooks : ∀ code ∈ c.hooks.codes, v.hook code = .ok (w.hook code))
    (deps : ∀ deps, v.deps deps = .ok (w.deps deps))
    (state : ∀ s ∈ c.state, v.state s.2.code = .ok (w.state s.2.code))
    (refs : ∀ r ∈ c.refs, v.refArgument r.2.argument = .ok (w.refArgument r.2.argument))
    (nodes : ∀ n ∈ c.nodes, TotalOn v w n) : visit v c = .ok (visit w c) := by
  have hstate : mapEntries (fun _ => visitState v) c.state = .ok (mapEntries (fun _ => visitState w) c.state) :=
    mapEntries_total fun s hs => by
      rw [visitState, state s hs]
      rfl
  have hrefs : mapEntries (fun _ => visitRef v) c.refs = .ok (mapEntries (fun _ => visitRef w) c.refs) :=
    mapEntries_total fun r hr => by
      rw [visitRef, refs r hr]
      rfl
  rw [visit, visitHooks_total hooks deps, ok_bind, hstate, ok_bind, hrefs, ok_bind, visitNodes_total nodes]
  rfl

def unchanged : Visitor Id where
  hook := id
  deps := id
  state := id
  refArgument := id
  binding := fun _ b => b
  property := id

theorem mapEntries_unchanged {α : Type} (es : Entries α) : mapEntries (m := Id) (fun _ a => a) es = es := by
  rw [mapEntries_eq_map]
  exact List.map_id es

mutual

theorem visitNode_unchanged (n : Node) : visitNode unchanged n = n := by
  match n with
  | ⟨name, properties, bindings, children, scope, elseBranch, metadata⟩ =>
    change Node.mk name (mapEntries (m := Id) (fun _ a => a) properties)
      (mapEntries (m := Id) (fun _ a => a) bindings) (visitNodes unchanged children) scope
      (visitBranch unchanged elseBranch) metadata = _
    rw [mapEntries_unchanged, mapEntries_unchanged, visitBranch_unchanged elseBranch,
      visitNodes_unchanged children]

theorem visitBranch_unchanged (branch : Option Node) : visitBranch unchanged branch = branch := by
  match branch with
  | none => rfl
  | some n => exact congrArg some (visitNode_unchanged n)

theorem visitNodes_unchanged (ns : List Node) : visitNodes unchanged ns = ns := by
  match ns with
  | [] => rfl
  | n :: rest => exact congrArg₂ List.cons (visitNode_unchanged n) (visitNodes_unchanged rest)

end

theorem visitUpdates_unchanged (us : List UpdateHook) : visitUpdates unchanged us = us := by
  induction us with
  | nil => rfl
  | cons u us ih => exact congrArg (u :: ·) ih

theorem mapOption_unchanged {α : Type} (o : Option α) : mapOption (m := Id) (fun a => a) o = o := by
  cases o <;> rfl

theorem visitHooks_unchanged (h : Hooks) : visitHooks unchanged h = h := by
  change Hooks.mk (mapOption (m := Id) (fun a => a) h.onInit) (mapOption (m := Id) (fun a => a) h.onMount)
    (visitUpdates unchanged h.onUpdate) (mapOption (m := Id) (fun a => a) h.onUnmount) = h
  rw [mapOption_unchanged, mapOption_unchanged, mapOption_unchanged, visitUpdates_unchanged]

theorem visit_unchanged (c : Component) : visit unchanged c = c := by
  change { c with
    hooks := visitHooks unchanged c.hooks
    state := mapEntries (m := Id) (fun _ a => a) c.state
    refs := mapEntries (m := Id) (fun _ a => a) c.refs
    children := visitNodes unchanged c.children } = c
  rw [visitHooks_unchanged, mapEntries_unchanged, mapEntries_unchanged, visitNodes_unchanged]

end Visitor

/-- A function on text applied to a snippet; what is no text stays. -/
def onText (f : Text → Text) : Json → Json
  | .str s => .str (f s)
  | j => j

/-- The refs of a component renamed at once: behind the receptor in hooks, state and initial values,
    without it in bindings; the bindings that declare a ref stay. -/
def refRenaming (fields : List (Text × Text)) (lead : Text) : Visitor Id where
  hook := onText (Snippet.renameRefs lead fields)
  deps := id
  state := onText (Snippet.renameRefs lead fields)
  refArgument := onText (Snippet.renameRefs lead fields)
  binding := fun key b =>
    if key == "ref" then b else b.map fun b => { b with code := onText (Snippet.renameRefs "" fields) b.code }
  property := id

section Fields

variable {c : Component} {domRefs : List Text}

theorem mem_refFields_iff {f : Text × Text} : f ∈ c.refFields domRefs ↔
    (f.1 ∈ Entries.keys c.refs ∨ f.1 ∈ domRefs) ∧
      f.2 = if domRefs.contains f.1 then f.1 else "_" ++ f.1 := by
  have hname : ∀ r, r ∈ Entries.keys c.refs ++
      (domRefs.filter fun r => !(Entries.keys c.refs).contains r).eraseDups ↔
        r ∈ Entries.keys c.refs ∨ r ∈ domRefs := by
    intro r
    rw [List.mem_append, List.mem_eraseDups, List.mem_filter, Bool.not_eq_true', Bool.eq_false_iff, ne_eq,
      List.contains_iff_mem]
    tauto
  rw [Component.refFields, List.mem_map, ← hname]
  constructor
  · rintro ⟨r, hr, rfl⟩
    exact ⟨hr, rfl⟩
  · rintro ⟨hr, hfield⟩
    exact ⟨f.1, hr, Prod.ext rfl hfield.symm⟩

theorem mem_keys_refFields {r : Text} :
    r ∈ Entries.keys (c.refFields domRefs) ↔ r ∈ Entries.keys c.refs ∨ r ∈ domRefs := by
  rw [Entries.keys, List.mem_map]
  constructor
  · rintro ⟨f, hf, rfl⟩
    exact (mem_refFields_iff.mp hf).1
  · exact fun hr => ⟨(r, if domRefs.contains r then r else "_" ++ r), mem_refFields_iff.mpr ⟨hr, rfl⟩, rfl⟩

theorem nodup_keys_refFields (hkeys : (Entries.keys c.refs).Nodup) :
    (Entries.keys (c.refFields domRefs)).Nodup := by
  have hnames : Entries.keys (c.refFields domRefs) = Entries.keys c.refs ++
      (domRefs.filter fun r => !(Entries.keys c.refs).contains r).eraseDups := by
    rw [Component.refFields, Entries.keys, List.map_map]
    exact List.map_id _
  rw [hnames, List.nodup_append]
  refine ⟨hkeys, nodup_eraseDups _, fun r hr s hs hsame => ?_⟩
  have hnot := (List.mem_filter.mp (List.mem_eraseDups.mp hs)).2
  rw [← hsame] at hnot
  simp [hr] at hnot

/-- Different refs have different fields exactly when no element has a ref that is named like the
    field of a value. -/
theorem nodup_fields_iff (hkeys : (Entries.keys c.refs).Nodup) :
    ((c.refFields domRefs).map Prod.snd).Nodup ↔ ∀ r ∈ c.valueRefs domRefs, "_" ++ r ∉ domRefs := by
  have hlonger : ∀ r : Text, r ≠ "_" ++ r := by
    intro r hsame
    have hlen := congrArg List.length hsame
    rw [List.length_append] at hlen
    change r.length = 1 + r.length at hlen
    omega
  constructor
  · intro hnodup r hr hdom
    obtain ⟨hdeclared, hnot⟩ := List.mem_filter.mp hr
    have hvalue : (r, ofString "_" ++ r) ∈ c.refFields domRefs :=
      mem_refFields_iff.mpr ⟨.inl hdeclared, (if_neg (by simpa using hnot)).symm⟩
    have helement : (ofString "_" ++ r, ofString "_" ++ r) ∈ c.refFields domRefs :=
      mem_refFields_iff.mpr ⟨.inr hdom, by simp [hdom]⟩
    have hsame := List.inj_on_of_nodup_map hnodup hvalue helement rfl
    exact hlonger r (congrArg Prod.fst hsame)
  · intro hapart
    refine (List.Nodup.of_map _ (nodup_keys_refFields hkeys)).map_on fun f hf g hg hsame => ?_
    have hfirst : f.1 = g.1 := by
      rcases mem_refFields hf with ⟨hdom, hfield⟩ | ⟨hvalue, hfield⟩ <;>
        rcases mem_refFields hg with ⟨hdom', hfield'⟩ | ⟨hvalue', hfield'⟩
      · rw [← hfield, hsame, hfield']
      · rw [hfield, hfield'] at hsame
        exact absurd (hsame ▸ hdom) (hapart _ hvalue')
      · rw [hfield, hfield'] at hsame
        exact absurd (hsame ▸ hdom') (hapart _ hvalue)
      · rw [hfield, hfield'] at hsame
        exact List.append_cancel_left hsame
    exact Prod.ext hfirst hsame

end Fields

namespace Component

/-- The code that refs are relocated in is text where it is given, and no binding but a ref has been
    taken away. -/
structure HasRefCode (c : Component) : Prop where
  codes : ∀ code ∈ c.relocatedCodes, code.IsOptionalText
  bindings : ∀ n ∈ c.nodes, ∀ b ∈ n.bindings, b.1 = "ref" ∨ ∃ x, b.2 = some x

/-- The refs are identifiers. -/
def HasRefNames (c : Component) (domRefs : List Text) : Prop :=
  ∀ r, r ∈ Entries.keys c.refs ∨ r ∈ domRefs → Snippet.IsName r ∧ r ≠ "this"

/-- No ref is named like the field of a value, and none like a word that declares the name after it. -/
structure RefsApart (c : Component) (domRefs : List Text) : Prop where
  fields : ∀ r ∈ c.valueRefs domRefs, "_" ++ r ∉ Entries.keys c.refs ∧ "_" ++ r ∉ domRefs
  quiet : ∀ r, r ∈ Entries.keys c.refs ∨ r ∈ domRefs → Snippet.declares r.reverse = false

theorem refsApart_refFields {c : Component} {domRefs : List Text} (hkeys : (Entries.keys c.refs).Nodup)
    (hnames : c.HasRefNames domRefs) (hapart : c.RefsApart domRefs) :
    Snippet.RefsApart (c.refFields domRefs) where
  isName f hf := hnames f.1 (mem_refFields_iff.mp hf).1
  written f hf := (mem_refFields hf).imp And.right And.right
  quiet f hf := hapart.quiet f.1 (mem_refFields_iff.mp hf).1
  nodup := nodup_keys_refFields hkeys
  apart f hf hfield := by
    rcases mem_refFields hf with ⟨_, hsame⟩ | ⟨hvalue, hled⟩
    · exact hsame
    · rw [hled, mem_keys_refFields] at hfield
      obtain ⟨hdeclared, hdom⟩ := hapart.fields f.1 hvalue
      rcases hfield with hfield | hfield
      · exact absurd hfield hdeclared
      · exact absurd hfield hdom

end Component

section Renamed

variable {c : Component} {fields : List (Text × Text)} {lead : Text}

theorem relocateRefs_eq (hlead : Snippet.IsLead lead) (hfields : Snippet.RefsApart fields) {code : Json}
    (hcode : code.IsOptionalText) :
    Snippet.relocateRefs fields lead code = .ok (onText (Snippet.renameRefs lead fields) code) := by
  rcases hcode with rfl | ⟨s, rfl⟩
  · rfl
  · rw [Snippet.relocateRefs]
    split
    next => exact Snippet.relocateEach_eq hlead hfields s
    next hgiven =>
      have hempty : s = [] := by
        cases s with
        | nil => rfl
        | cons c cs => exact absurd rfl hgiven
      subst hempty
      have hnone : Snippet.segments [] = [] := by rw [Snippet.segments]
      rw [onText, Snippet.renameRefs, hnone, List.flatMap_nil]

theorem visit_refSteps (hlead : Snippet.IsLead lead) (hfields : Snippet.RefsApart fields)
    (hc : c.HasRefCode) :
    Visitor.visit (refSteps fields lead) c = .ok (Visitor.visit (refRenaming fields lead) c) := by
  have hstep : ∀ code ∈ c.relocatedCodes, Snippet.relocateRefs fields lead code =
      .ok (onText (Snippet.renameRefs lead fields) code) :=
    fun code hcode => relocateRefs_eq hlead hfields (hc.codes code hcode)
  refine Visitor.visit_total (fun code hcode => hstep code (mem_relocatedCodes.mpr (.inl hcode)))
    (fun _ => rfl) (fun s hs => hstep _ (mem_relocatedCodes.mpr (.inr (.inl ⟨s, hs, rfl⟩))))
    (fun r hr => hstep _ (mem_relocatedCodes.mpr (.inr (.inr (.inl ⟨r, hr, rfl⟩)))))
    fun n hn => ⟨fun b hb => ?_, fun _ _ => rfl⟩
  obtain ⟨key, b⟩ := b
  change (if key == "ref" then pure b else onBindingCode _ b) =
    .ok (if key == "ref" then b else b.map _)
  split
  next => rfl
  next hkey =>
    obtain ⟨x, rfl⟩ : ∃ x, b = some x := (hc.bindings n hn _ hb).resolve_left (by simpa using hkey)
    have hcode : relocatedCode? (key, some x) = some x.code := relocatedCode?_eq_some (by simpa using hkey) x
    have hmoved : Snippet.relocateRefs fields "" x.code = _ := relocateRefs_eq (.inl rfl) hfields
      (hc.codes _ (mem_relocatedCodes.mpr (.inr (.inr (.inr ⟨n, hn, _, hb, hcode⟩)))))
    exact onBindingCode_eq_ok.mpr ⟨_, hmoved, rfl⟩

theorem refRenaming_noFields (lead : Text) : refRenaming [] lead = Visitor.unchanged := by
  have hcode : ∀ lead, onText (Snippet.renameRefs lead []) = id := by
    intro lead
    funext j
    cases j <;> simp [onText, Snippet.renameRefs_noFields]
  have hbinding : (fun (key : Text) (b : Option Binding) =>
      if key == "ref" then b else b.map fun b => { b with code := onText (Snippet.renameRefs "" []) b.code }) =
        fun _ b => b := by
    funext key b
    rw [hcode]
    split
    next => rfl
    next => cases b <;> rfl
  rw [refRenaming, hcode, hbinding]
  rfl

theorem mapRefs_eq {domRefs : List Text} (hlead : Snippet.IsLead lead)
    (hfields : Snippet.RefsApart (c.refFields domRefs)) (hc : c.HasRefCode) :
    (c.mapRefs domRefs lead).toAttempt =
      .ok (Visitor.visit (refRenaming (c.refFields domRefs) lead) c) := by
  by_cases hnone : c.refFields domRefs = []
  · rw [mapRefs_noFields hnone, hnone, refRenaming_noFields, Visitor.visit_unchanged]
  · rw [mapRefs_toAttempt domRefs hnone, visit_refSteps hlead hfields hc]

end Renamed

section Order

variable {c : Component} {domRefs domRefs' : List Text} {refs : Entries RefSpec}

theorem hasRefCode_perm (hperm : refs.Perm c.refs) (hc : c.HasRefCode) :
    Component.HasRefCode { c with refs := refs } where
  codes code hcode := by
    refine hc.codes code (mem_relocatedCodes.mpr ?_)
    rcases mem_relocatedCodes.mp hcode with hcode | hcode | ⟨r, hr, hcode⟩ | hcode
    · exact .inl hcode
    · exact .inr (.inl hcode)
    · exact .inr (.inr (.inl ⟨r, hperm.mem_iff.mp hr, hcode⟩))
    · exact .inr (.inr (.inr hcode))
  bindings := hc.bindings

/-- The fields are the same whatever the order of the refs. -/
theorem mem_refFields_perm (hperm : refs.Perm c.refs) (hdom : ∀ r, r ∈ domRefs' ↔ r ∈ domRefs)
    (f : Text × Text) : f ∈ Component.refFields { c with refs := refs } domRefs' ↔ f ∈ c.refFields domRefs := by
  have hkeys : f.1 ∈ Entries.keys refs ↔ f.1 ∈ Entries.keys c.refs := (hperm.map Prod.fst).mem_iff
  have hcontains : domRefs'.contains f.1 = domRefs.contains f.1 := by
    rw [Bool.eq_iff_iff, List.contains_iff_mem, List.contains_iff_mem, hdom]
  rw [mem_refFields_iff, mem_refFields_iff, hcontains, hkeys, hdom]

theorem refRenaming_perm (hkeys : (Entries.keys c.refs).Nodup) (hperm : refs.Perm c.refs)
    (hdom : ∀ r, r ∈ domRefs' ↔ r ∈ domRefs) (lead : Text) :
    refRenaming (Component.refFields { c with refs := refs } domRefs') lead =
      refRenaming (c.refFields domRefs) lead := by
  have hkeys' : (Entries.keys refs).Nodup := (hperm.map Prod.fst).nodup_iff.mpr hkeys
  have hsame := Snippet.renameRefs_congr (nodup_keys_refFields (c := { c with refs := refs }) hkeys')
    (nodup_keys_refFields hkeys) (mem_refFields_perm hperm hdom)
  rw [refRenaming, refRenaming, hsame, hsame]

theorem refsApart_perm (hperm : refs.Perm c.refs) (hdom : ∀ r, r ∈ domRefs' ↔ r ∈ domRefs)
    (h : Snippet.RefsApart (c.refFields domRefs)) (hkeys : (Entries.keys c.refs).Nodup) :
    Snippet.RefsApart (Component.refFields { c with refs := refs } domRefs') where
  isName f hf := h.isName f ((mem_refFields_perm hperm hdom f).mp hf)
  written f hf := h.written f ((mem_refFields_perm hperm hdom f).mp hf)
  quiet f hf := h.quiet f ((mem_refFields_perm hperm hdom f).mp hf)
  nodup := nodup_keys_refFields (c := { c with refs := refs }) ((hperm.map Prod.fst).nodup_iff.mpr hkeys)
  apart f hf hfield := by
    obtain ⟨g, hg, hsame⟩ := List.mem_map.mp hfield
    refine h.apart f ((mem_refFields_perm hperm hdom f).mp hf) (hsame ▸ ?_)
    exact List.mem_map_of_mem ((mem_refFields_perm hperm hdom g).mp hg)

end Order

namespace Component

/-- Refs have fields of their own exactly when no element has a ref that is named like the field of a
    value. If moreover no ref is, and none is named like a declaring word, then relocating them
    renames every snippet at once, in whatever order they are declared and found on elements. -/
theorem refs_renamed_at_once {c : Component} (hc : c.HasRefCode) (hkeys : (Entries.keys c.refs).Nodup)
    {domRefs : List Text} (hnames : c.HasRefNames domRefs) :
    (((c.refFields domRefs).map Prod.snd).Nodup ↔ ∀ r ∈ c.valueRefs domRefs, "_" ++ r ∉ domRefs) ∧
      (c.RefsApart domRefs →
        let renamed : Component :=
          Visitor.visit (refRenaming (c.refFields domRefs) Module.instanceLead) c
        (c.mapRefs domRefs Module.instanceLead).toAttempt = .ok renamed ∧
          ∀ refs domRefs', refs.Perm c.refs → (∀ r, r ∈ domRefs' ↔ r ∈ domRefs) →
            ∃ refs', refs'.Perm renamed.refs ∧
              (Component.mapRefs { c with refs := refs } domRefs' Module.instanceLead).toAttempt =
                .ok { renamed with refs := refs' }) := by
  refine ⟨nodup_fields_iff hkeys, fun hapart => ?_⟩
  have hlead : Snippet.IsLead Module.instanceLead := .inr rfl
  have hfields := refsApart_refFields hkeys hnames hapart
  refine ⟨mapRefs_eq hlead hfields hc, ?_⟩
  intro refs domRefs' hperm hdom
  have hsame := mapRefs_eq hlead (refsApart_perm hperm hdom hfields hkeys) (hasRefCode_perm hperm hc)
  rw [refRenaming_perm hkeys hperm hdom] at hsame
  exact ⟨_, Visitor.mapEntries_perm hperm, hsame⟩

/-- A title that reads the ref of a value, on an element with a ref of its own. -/
def tracked (refs : Entries RefSpec) (title focus : Text) : Component where
  name := .str "Tracked"
  children := [⟨.str "p", [], [("ref", some (.ofCode (.str "panel") .normal)),
    ("title", some ⟨.str title, .null, .normal, .null⟩)], [], .empty, none, []⟩]
  state := []
  props := []
  propsTypeRef := .null
  defaultProps := []
  refs := refs
  hooks := ⟨none, some (.str focus), [], none⟩
  context := ⟨[], []⟩
  imports := []
  exports := []
  metadata := []
  types := []
  css := .null

theorem tracked_hasRefCode {refs : Entries RefSpec} (h : ∀ r ∈ refs, r.2.argument = .null)
    (title focus : Text) : (tracked refs title focus).HasRefCode where
  codes code hcode := by
    rcases mem_relocatedCodes.mp hcode with hcode | ⟨_, hs, _⟩ | ⟨r, hr, rfl⟩ | ⟨n, hn, b, hb, hcode⟩
    · exact .inr ⟨focus, List.mem_singleton.mp hcode⟩
    · cases hs
    · exact .inl (h r hr)
    · obtain rfl := List.mem_singleton.mp hn
      rcases List.mem_cons.mp hb with rfl | hb
      · cases hcode
      · obtain rfl := List.mem_singleton.mp hb
        exact .inr ⟨title, (Option.some.inj hcode).symm⟩
  bindings n hn b hb := by
    obtain rfl := List.mem_singleton.mp hn
    rcases List.mem_cons.mp hb with rfl | hb
    · exact .inl rfl
    · obtain rfl := List.mem_singleton.mp hb
      exact .inr ⟨_, rfl⟩

/-- A value and an element. -/
def timerAndPanel : Entries RefSpec := [("timer", ⟨.null, .null⟩), ("panel", ⟨.null, .null⟩)]

theorem refs_renamed_at_once_tracked :
    let renamed := tracked timerAndPanel "_timer" "this.panel.focus()"
    (Component.mapRefs (tracked timerAndPanel "timer.current" "panel.current.focus()") ["panel"]
        Module.instanceLead).toAttempt = .ok renamed ∧
      ∃ refs', refs'.Perm timerAndPanel ∧
        (Component.mapRefs (tracked timerAndPanel.reverse "timer.current" "panel.current.focus()")
          ["panel", "panel"] Module.instanceLead).toAttempt = .ok { renamed with refs := refs' } := by
  have hnames : (tracked timerAndPanel "timer.current" "panel.current.focus()").HasRefNames ["panel"] := by
    have hall : ∀ r ∈ Entries.keys timerAndPanel ++ [ofString "panel"], Snippet.IsName r ∧ r ≠ "this" := by
      unfold Snippet.IsName
      decide
    exact fun r hr => hall r (List.mem_append.mpr hr)
  have hapart : (tracked timerAndPanel "timer.current" "panel.current.focus()").RefsApart ["panel"] := by
    have hall : ∀ r ∈ Entries.keys timerAndPanel ++ [ofString "panel"], Snippet.declares r.reverse = false := by
      decide
    exact ⟨by decide, fun r hr => hall r (List.mem_append.mpr hr)⟩
  have hrenamed : (Visitor.visit (refRenaming
      ((tracked timerAndPanel "timer.current" "panel.current.focus()").refFields ["panel"])
        Module.instanceLead) (tracked timerAndPanel "timer.current" "panel.current.focus()")) =
      tracked timerAndPanel "_timer" "this.panel.focus()" := by
    with_unfolding_all rfl
  have hvalues : ∀ r ∈ timerAndPanel, r.2.argument = .null :=
    List.forall_mem_cons.mpr ⟨rfl, List.forall_mem_singleton.mpr rfl⟩
  obtain ⟨_, hrenaming⟩ := refs_renamed_at_once
    (tracked_hasRefCode hvalues "timer.current" "panel.current.focus()") (by decide) hnames
  obtain ⟨hfirst, horder⟩ := hrenaming hapart
  rw [hrenamed] at hfirst horder
  exact ⟨hfirst, horder timerAndPanel.reverse ["panel", "panel"] timerAndPanel.reverse_perm (by simp)⟩

/-- The field of one value is the name of another: a binding is relocated twice, unless the other ref
    comes first. -/
theorem crossed_ref_relocated_twice :
    let refs : Entries RefSpec := [("x", ⟨.null, .null⟩), ("_x", ⟨.null, .null⟩)]
    (tracked refs "x" "").HasRefNames [] ∧ (Entries.keys refs).Nodup ∧
      (Component.mapRefs (tracked refs "x" "") [] Module.instanceLead).toAttempt =
        .ok (tracked refs "__x" "") ∧
      (Component.mapRefs (tracked refs.reverse "x" "") [] Module.instanceLead).toAttempt =
        .ok (tracked refs.reverse "_x" "") := by
  have hnames : ∀ r ∈ ([ofString "x", ofString "_x"] : List Text), Snippet.IsName r ∧ r ≠ "this" := by
    unfold Snippet.IsName
    decide
  refine ⟨fun r hr => hnames r (hr.resolve_right List.not_mem_nil), by decide, ?_, ?_⟩
  · with_unfolding_all rfl
  · with_unfolding_all rfl

end Component

end ElementCompiler
