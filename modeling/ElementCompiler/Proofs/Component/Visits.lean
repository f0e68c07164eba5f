import ElementCompiler.Component.Visitor
import ElementCompiler.Proofs.Attempt

set_option autoImplicit false

/-!
Visits as attempts. A visit goes through when every step does, and then each snippet of the result
comes from a snippet of the component that was visited, in the same place.
-/

namespace ElementCompiler

open Attempt

def Hooks.codes (h : Hooks) : List Json :=
  h.onInit.toList ++ h.onMount.toList ++ h.onUnmount.toList ++ h.onUpdate.map UpdateHook.code

namespace Visitor

/-- An entry with the same key, whose value is what the step makes of the value. -/
def EntryVisited {α β : Type} (f : Text → α → Attempt β) (e : Text × α) (e' : Text × β) : Prop :=
  e'.1 = e.1 ∧ f e.1 e.2 = .ok e'.2

section Entries

variable {α β : Type} {f : Text → α → Attempt β}

theorem mapEntries_eq_ok {es : Entries α} {es' : Entries β} :
    mapEntries f es = .ok es' ↔ List.Forall₂ (EntryVisited f) es es' := by
  induction es generalizing es' with
  | nil =>
    rw [mapEntries, List.forall₂_nil_left_iff]
    exact ⟨fun h => (Except.ok.inj h).symm, fun h => by rw [h]; rfl⟩
  | cons e es ih =>
    obtain ⟨key, a⟩ := e
    rw [mapEntries, bind_eq_ok]
    constructor
    · rintro ⟨b, hb, h⟩
      obtain ⟨rest, hrest, h⟩ := bind_eq_ok.mp h
      obtain rfl := Except.ok.inj h
      exact .cons ⟨rfl, hb⟩ (ih.mp hrest)
    · intro h
      cases h with
      | @cons _ e' _ rest he hrest =>
        obtain ⟨key', b⟩ := e'
        obtain ⟨rfl, hb⟩ := he
        exact ⟨b, hb, bind_eq_ok.mpr ⟨rest, ih.mpr hrest, rfl⟩⟩

theorem exists_mapEntries (es : Entries α) :
    (∃ es', mapEntries f es = .ok es') ↔ ∀ e ∈ es, ∃ b, f e.1 e.2 = .ok b := by
  induction es with
  | nil => exact ⟨fun _ e he => absurd he List.not_mem_nil, fun _ => ⟨[], rfl⟩⟩
  | cons e es ih =>
    obtain ⟨key, a⟩ := e
    rw [List.forall_mem_cons]
    exact exists_seq fun b => (exists_return fun rest => (key, b) :: rest).trans ih

theorem keys_visited {es : Entries α} {es' : Entries β} (h : List.Forall₂ (EntryVisited f) es es') :
    Entries.keys es' = Entries.keys es := by
  induction h with
  | nil => rfl
  | cons he _ ih =>
    rw [Entries.keys, Entries.keys] at ih ⊢
    rw [List.map_cons, List.map_cons, he.1, ih]

/-- A key is found in both or in neither, and the values that are found belong together. -/
theorem get?_visited {es : Entries α} {es' : Entries β}
    (h : List.Forall₂ (EntryVisited f) es es') (key : Text) :
    Option.Rel (fun a b => f key a = .ok b) (Entries.get? es key) (Entries.get? es' key) := by
  induction h with
  | nil => exact .none
  | @cons e e' es es' he _ ih =>
    obtain ⟨k, a⟩ := e
    obtain ⟨k', b⟩ := e'
    obtain ⟨rfl, hb⟩ := he
    rw [Entries.get?, Entries.get?]
    by_cases hk : k' = key
    · rw [if_pos (beq_iff_eq.mpr hk), if_pos (beq_iff_eq.mpr hk)]
      exact .some (hk ▸ hb)
    · rw [if_neg (by simpa using hk), if_neg (by simpa using hk)]
      exact ih

end Entries

variable {v : Visitor Attempt}

def NodeReady (v : Visitor Attempt) (n : Node) : Prop :=
  (∀ b ∈ n.bindings, ∃ b', v.binding b.1 b.2 = .ok b') ∧
    ∀ p ∈ n.properties, ∃ p', v.property p.2 = .ok p'

/-- What a visit leaves and what it changes of a node, the nodes below it apart. -/
structure NodeVisited (v : Visitor Attempt) (n n' : Node) : Prop where
  name : n'.name = n.name
  scope : n'.scope = n.scope
  bindings : List.Forall₂ (EntryVisited v.binding) n.bindings n'.bindings
  properties : List.Forall₂ (EntryVisited fun _ => v.property) n.properties n'.properties

mutual

theorem exists_visitNode (n : Node) :
    (∃ n', visitNode v n = .ok n') ↔ ∀ m ∈ n.subtree, NodeReady v m := by
  match n with
  | ⟨name, properties, bindings, children, scope, elseBranch, metadata⟩ =>
    rw [visitNode, Node.subtree, List.forall_mem_cons, List.forall_mem_append, NodeReady,
      ← exists_mapEntries, ← exists_mapEntries (f := fun _ => v.property), and_assoc]
    refine exists_seq fun _ => exists_seq fun _ => ?_
    rw [← exists_visitBranch elseBranch, ← exists_visitNodes children]
    exact exists_seq fun _ => exists_return _

theorem exists_visitBranch (branch : Option Node) :
    (∃ b, visitBranch v branch = .ok b) ↔ ∀ m ∈ Node.branchNodes branch, NodeReady v m := by
  match branch with
  | none => exact ⟨fun _ m hm => absurd hm List.not_mem_nil, fun _ => ⟨none, rfl⟩⟩
  | some n =>
    rw [Node.branchNodes, ← exists_visitNode n]
    exact exists_return some

theorem exists_visitNodes (ns : List Node) :
    (∃ ns', visitNodes v ns = .ok ns') ↔ ∀ m ∈ Node.subtrees ns, NodeReady v m := by
  match ns with
  | [] => exact ⟨fun _ m hm => absurd hm List.not_mem_nil, fun _ => ⟨[], rfl⟩⟩
  | n :: rest =>
    rw [Node.subtrees, List.forall_mem_append, ← exists_visitNode n, ← exists_visitNodes rest]
    exact exists_seq fun _ => exists_return _

end

mutual

theorem subtree_visited {n n' : Node} (h : visitNode v n = .ok n') :
    List.Forall₂ (NodeVisited v) n.subtree n'.subtree := by
  match n with
  | ⟨name, properties, bindings, children, scope, elseBranch, metadata⟩ =>
    rw [visitNode] at h
    obtain ⟨bindings', hbindings, h⟩ := bind_eq_ok.mp h
    obtain ⟨properties', hproperties, h⟩ := bind_eq_ok.mp h
    obtain ⟨branch', hbranch, h⟩ := bind_eq_ok.mp h
    obtain ⟨children', hchildren, h⟩ := bind_eq_ok.mp h
    obtain rfl := Except.ok.inj h
    rw [Node.subtree, Node.subtree]
    refine .cons ⟨rfl, rfl, mapEntries_eq_ok.mp hbindings, mapEntries_eq_ok.mp hproperties⟩ ?_
    exact List.rel_append (branchNodes_visited hbranch) (subtrees_visited hchildren)

theorem branchNodes_visited {branch branch' : Option Node} (h : visitBranch v branch = .ok branch') :
    List.Forall₂ (NodeVisited v) (Node.branchNodes branch) (Node.branchNodes branch') := by
  match branch with
  | none =>
    obtain rfl := Except.ok.inj h
    exact .nil
  | some n =>
    obtain ⟨n', hn, h⟩ := bind_eq_ok.mp h
    obtain rfl := Except.ok.inj h
    exact subtree_visited hn

theorem subtrees_visited {ns ns' : List Node} (h : visitNodes v ns = .ok ns') :
    List.Forall₂ (NodeVisited v) (Node.subtrees ns) (Node.subtrees ns') := by
  match ns with
  | [] =>
    obtain rfl := Except.ok.inj h
    exact .nil
  | n :: rest =>
    obtain ⟨n', hn, h⟩ := bind_eq_ok.mp h
    obtain ⟨rest', hrest, h⟩ := bind_eq_ok.mp h
    obtain rfl := Except.ok.inj h
    exact List.rel_append (subtree_visited hn) (subtrees_visited hrest)

end

structure Ready (v : Visitor Attempt) (c : Component) : Prop where
  hooks : ∀ code ∈ c.hooks.codes, ∃ x, v.hook code = .ok x
  deps : ∀ u ∈ c.hooks.onUpdate, ∃ ds, v.deps u.deps = .ok ds
  state : ∀ s ∈ c.state, ∃ x, v.state s.2.code = .ok x
  refs : ∀ r ∈ c.refs, ∃ x, v.refArgument r.2.argument = .ok x
  nodes : ∀ n ∈ c.nodes, NodeReady v n

theorem exists_mapOption {α β : Type} {f : α → Attempt β} (o : Option α) :
    (∃ o', mapOption f o = .ok o') ↔ ∀ a ∈ o.toList, ∃ b, f a = .ok b := by
  cases o with
  | none => exact ⟨fun _ a ha => absurd ha List.not_mem_nil, fun _ => ⟨none, rfl⟩⟩
  | some a =>
    rw [Option.toList_some, List.forall_mem_singleton]
    exact exists_return some

theorem exists_visitUpdates (us : List UpdateHook) :
    (∃ us', visitUpdates v us = .ok us') ↔
      (∀ code ∈ us.map UpdateHook.code, ∃ x, v.hook code = .ok x) ∧
        ∀ u ∈ us, ∃ ds, v.deps u.deps = .ok ds := by
  induction us with
  | nil =>
    exact ⟨fun _ => ⟨fun _ h => absurd h List.not_mem_nil, fun _ h => absurd h List.not_mem_nil⟩,
      fun _ => ⟨[], rfl⟩⟩
  | cons u us ih =>
    have hfirst : (∃ u', visitUpdate v u = .ok u') ↔
        (∃ x, v.hook u.code = .ok x) ∧ ∃ ds, v.deps u.deps = .ok ds :=
      exists_seq fun _ => exists_return _
    rw [List.map_cons, List.forall_mem_cons, List.forall_mem_cons, and_and_and_comm, ← ih, ← hfirst]
    exact exists_seq fun _ => exists_return _

theorem exists_visitHooks (h : Hooks) : (∃ h', visitHooks v h = .ok h') ↔
    (∀ code ∈ h.codes, ∃ x, v.hook code = .ok x) ∧
      ∀ u ∈ h.onUpdate, ∃ ds, v.deps u.deps = .ok ds := by
  rw [Hooks.codes, List.forall_mem_append, List.forall_mem_append, List.forall_mem_append,
    ← exists_mapOption, ← exists_mapOption, ← exists_mapOption, and_assoc, and_assoc, and_assoc,
    ← exists_visitUpdates]
  exact exists_seq fun _ => exists_seq fun _ => exists_seq fun _ => exists_return _

theorem exists_visit (c : Component) : (∃ c', visit v c = .ok c') ↔ Ready v c := by
  have hstate : (∃ es, mapEntries (fun _ => visitState v) c.state = .ok es) ↔
      ∀ s ∈ c.state, ∃ x, v.state s.2.code = .ok x := by
    rw [exists_mapEntries]
    exact forall₂_congr fun s _ => exists_return _
  have hrefs : (∃ es, mapEntries (fun _ => visitRef v) c.refs = .ok es) ↔
      ∀ r ∈ c.refs, ∃ x, v.refArgument r.2.argument = .ok x := by
    rw [exists_mapEntries]
    exact forall₂_congr fun r _ => exists_return _
  have hready : Ready v c ↔ (∃ h, visitHooks v c.hooks = .ok h) ∧
      (∃ es, mapEntries (fun _ => visitState v) c.state = .ok es) ∧
        (∃ es, mapEntries (fun _ => visitRef v) c.refs = .ok es) ∧
          ∃ ns, visitNodes v c.children = .ok ns := by
    rw [exists_visitHooks, hstate, hrefs, exists_visitNodes]
    exact ⟨fun h => ⟨⟨h.hooks, h.deps⟩, h.state, h.refs, h.nodes⟩,
      fun h => ⟨h.1.1, h.1.2, h.2.1, h.2.2.1, h.2.2.2⟩⟩
  rw [hready]
  exact exists_seq fun _ => exists_seq fun _ => exists_seq fun _ => exists_return _

/-- Where the snippets of a visited component come from, and what stays. -/
structure Visited (v : Visitor Attempt) (c c' : Component) : Prop where
  hooks : ∀ code' ∈ c'.hooks.codes, ∃ code ∈ c.hooks.codes, v.hook code = .ok code'
  deps : ∀ u' ∈ c'.hooks.onUpdate, ∃ u ∈ c.hooks.onUpdate, v.deps u.deps = .ok u'.deps
  state : List.Forall₂ (EntryVisited fun _ => visitState v) c.state c'.state
  refs : List.Forall₂ (EntryVisited fun _ => visitRef v) c.refs c'.refs
  nodes : List.Forall₂ (NodeVisited v) c.nodes c'.nodes
  rest : c' = { c with
    hooks := c'.hooks, state := c'.state, refs := c'.refs, children := c'.children }

theorem mapOption_eq_ok {α β : Type} {f : α → Attempt β} {o : Option α} {o' : Option β}
    (h : mapOption f o = .ok o') : ∀ b ∈ o'.toList, ∃ a ∈ o.toList, f a = .ok b := by
  cases o with
  | none =>
    obtain rfl := Except.ok.inj h
    exact fun b hb => absurd hb List.not_mem_nil
  | some a =>
    obtain ⟨b, hb, h⟩ := bind_eq_ok.mp h
    obtain rfl := Except.ok.inj h
    intro b' hb'
    obtain rfl := List.mem_singleton.mp hb'
    exact ⟨a, List.mem_singleton_self a, hb⟩

theorem visitUpdates_eq_ok {us us' : List UpdateHook} (h : visitUpdates v us = .ok us') :
    List.Forall₂ (fun u u' => v.hook u.code = .ok u'.code ∧ v.deps u.deps = .ok u'.deps) us us' := by
  induction us generalizing us' with
  | nil =>
    obtain rfl := Except.ok.inj h
    exact .nil
  | cons u us ih =>
    obtain ⟨u', hu, h⟩ := bind_eq_ok.mp h
    obtain ⟨rest, hrest, h⟩ := bind_eq_ok.mp h
    obtain rfl := Except.ok.inj h
    obtain ⟨code, hcode, hu⟩ := bind_eq_ok.mp hu
    obtain ⟨deps, hdeps, hu⟩ := bind_eq_ok.mp hu
    obtain rfl := Except.ok.inj hu
    exact .cons ⟨hcode, hdeps⟩ (ih hrest)

theorem codes_visited {h h' : Hooks} (hvisit : visitHooks v h = .ok h') :
    (∀ code' ∈ h'.codes, ∃ code ∈ h.codes, v.hook code = .ok code') ∧
      ∀ u' ∈ h'.onUpdate, ∃ u ∈ h.onUpdate, v.deps u.deps = .ok u'.deps := by
  obtain ⟨onInit, hinit, hvisit⟩ := bind_eq_ok.mp hvisit
  obtain ⟨onMount, hmount, hvisit⟩ := bind_eq_ok.mp hvisit
  obtain ⟨onUnmount, hunmount, hvisit⟩ := bind_eq_ok.mp hvisit
  obtain ⟨onUpdate, hupdate, hvisit⟩ := bind_eq_ok.mp hvisit
  obtain rfl := Except.ok.inj hvisit
  have hupdates := exists_left (visitUpdates_eq_ok hupdate)
  refine ⟨fun code' hcode' => ?_, fun u' hu' => ?_⟩
  · simp only [Hooks.codes, List.mem_append, List.mem_map] at hcode' ⊢
    rcases hcode' with ((hcode' | hcode') | hcode') | ⟨u', hu', rfl⟩
    · obtain ⟨code, hcode, hstep⟩ := mapOption_eq_ok hinit code' hcode'
      exact ⟨code, .inl (.inl (.inl hcode)), hstep⟩
    · obtain ⟨code, hcode, hstep⟩ := mapOption_eq_ok hmount code' hcode'
      exact ⟨code, .inl (.inl (.inr hcode)), hstep⟩
    · obtain ⟨code, hcode, hstep⟩ := mapOption_eq_ok hunmount code' hcode'
      exact ⟨code, .inl (.inr hcode), hstep⟩
    · obtain ⟨u, hu, hstep, _⟩ := hupdates u' hu'
      exact ⟨u.code, .inr ⟨u, hu, rfl⟩, hstep⟩
  · obtain ⟨u, hu, _, hdeps⟩ := hupdates u' hu'
    exact ⟨u, hu, hdeps⟩

theorem visited_of_visit {c c' : Component} (h : visit v c = .ok c') : Visited v c c' := by
  obtain ⟨hooks, hhooks, h⟩ := bind_eq_ok.mp h
  obtain ⟨state, hstate, h⟩ := bind_eq_ok.mp h
  obtain ⟨refs, hrefs, h⟩ := bind_eq_ok.mp h
  obtain ⟨children, hchildren, h⟩ := bind_eq_ok.mp h
  obtain rfl := Except.ok.inj h
  obtain ⟨hcodes, hdeps⟩ := codes_visited hhooks
  exact ⟨hcodes, hdeps, mapEntries_eq_ok.mp hstate, mapEntries_eq_ok.mp hrefs,
    subtrees_visited hchildren, rfl⟩

theorem visitState_eq_ok {s s' : StateValue} :
    visitState v s = .ok s' ↔ ∃ code, v.state s.code = .ok code ∧ s' = { s with code } := by
  rw [visitState, bind_eq_ok]
  exact exists_congr fun code => and_congr_right fun _ => ⟨fun h => (Except.ok.inj h).symm,
    fun h => by rw [h]; rfl⟩

theorem visitRef_eq_ok {r r' : RefSpec} : visitRef v r = .ok r' ↔
    ∃ argument, v.refArgument r.argument = .ok argument ∧ r' = { r with argument } := by
  rw [visitRef, bind_eq_ok]
  exact exists_congr fun argument => and_congr_right fun _ => ⟨fun h => (Except.ok.inj h).symm,
    fun h => by rw [h]; rfl⟩

end Visitor
end ElementCompiler
