import ElementCompiler.Component.Visitor
import ElementCompiler.Proofs.Attempt

set_option autoImplicit false

/-!
Components that differ in their snippets only. What a visit promises of each snippet, whatever else
its steps do, it promises of the whole component: each snippet is rewritten in its place, and all
else stays.
-/

namespace ElementCompiler

/-- What may become of each kind of snippet; of a binding only the code. -/
structure Rewriting where
  hook : Json → Json → Prop
  deps : List Json → List Json → Prop
  state : Json → Json → Prop
  refArgument : Json → Json → Prop
  binding : Text → Json → Json → Prop
  property : Json → Json → Prop

namespace Rewriting

/-- Each snippet is rewritten or left as it is. -/
def orSame (r : Rewriting) : Rewriting where
  hook old new := r.hook old new ∨ new = old
  deps old new := r.deps old new ∨ new = old
  state old new := r.state old new ∨ new = old
  refArgument old new := r.refArgument old new ∨ new = old
  binding key old new := r.binding key old new ∨ new = old
  property old new := r.property old new ∨ new = old

/-- An entry with the same key. -/
def OfEntry {α : Type} (R : Text → α → α → Prop) (e e' : Text × α) : Prop :=
  e'.1 = e.1 ∧ R e.1 e.2 e'.2

/-- A binding that is there still is, and differs in its code; one that was taken away is not. -/
def OfBinding (r : Rewriting) (key : Text) : Option Binding → Option Binding → Prop :=
  Option.Rel fun b b' => r.binding key b.code b'.code ∧ b' = { b with code := b'.code }

def OfState (r : Rewriting) (s s' : StateValue) : Prop :=
  r.state s.code s'.code ∧ s' = { s with code := s'.code }

def OfRef (r : Rewriting) (s s' : RefSpec) : Prop :=
  r.refArgument s.argument s'.argument ∧ s' = { s with argument := s'.argument }

def OfUpdate (r : Rewriting) (u u' : UpdateHook) : Prop :=
  r.hook u.code u'.code ∧ r.deps u.deps u'.deps

mutual

/-- A node of the same shape with the same name, scope and metadata. -/
inductive OfNode (r : Rewriting) : Node → Node → Prop
  | node {name : Json} {scope : Scope} {metadata : Entries Json Key}
      {properties properties' : Entries Json} {bindings bindings' : Entries (Option Binding)}
      {branch branch' : Option Node} {children children' : List Node}
      (hproperties : List.Forall₂ (OfEntry fun _ => r.property) properties properties')
      (hbindings : List.Forall₂ (OfEntry (OfBinding r)) bindings bindings')
      (hbranch : OfBranch r branch branch') (hchildren : OfNodes r children children') :
      OfNode r ⟨name, properties, bindings, children, scope, branch, metadata⟩
        ⟨name, properties', bindings', children', scope, branch', metadata⟩

inductive OfBranch (r : Rewriting) : Option Node → Option Node → Prop
  | none : OfBranch r none none
  | some {n n' : Node} (h : OfNode r n n') : OfBranch r (some n) (some n')

inductive OfNodes (r : Rewriting) : List Node → List Node → Prop
  | nil : OfNodes r [] []
  | cons {n n' : Node} {rest rest' : List Node} (hfirst : OfNode r n n')
      (hrest : OfNodes r rest rest') : OfNodes r (n :: rest) (n' :: rest')

end

structure OfHooks (r : Rewriting) (h h' : Hooks) : Prop where
  onInit : Option.Rel r.hook h.onInit h'.onInit
  onMount : Option.Rel r.hook h.onMount h'.onMount
  onUpdate : List.Forall₂ (OfUpdate r) h.onUpdate h'.onUpdate
  onUnmount : Option.Rel r.hook h.onUnmount h'.onUnmount

/-- A component with the same entries in the same order and with trees of the same shape; what is
    neither a hook, a state, a ref nor a node is the same. -/
structure Of (r : Rewriting) (c c' : Component) : Prop where
  hooks : OfHooks r c.hooks c'.hooks
  state : List.Forall₂ (OfEntry fun _ => OfState r) c.state c'.state
  refs : List.Forall₂ (OfEntry fun _ => OfRef r) c.refs c'.refs
  children : OfNodes r c.children c'.children
  rest : c' = { c with
    hooks := c'.hooks, state := c'.state, refs := c'.refs, children := c'.children }

/-- Each snippet may stay as it is. -/
structure IsReflexive (r : Rewriting) : Prop where
  hook : ∀ code, r.hook code code
  deps : ∀ deps, r.deps deps deps
  state : ∀ code, r.state code code
  refArgument : ∀ code, r.refArgument code code
  binding : ∀ key code, r.binding key code code
  property : ∀ j, r.property j j

theorem orSame_isReflexive (r : Rewriting) : r.orSame.IsReflexive :=
  ⟨fun _ => .inr rfl, fun _ => .inr rfl, fun _ => .inr rfl, fun _ => .inr rfl, fun _ _ => .inr rfl,
    fun _ => .inr rfl⟩

section Reflexive

variable {r : Rewriting}

theorem OfBinding.same {key : Text} (h : ∀ code, r.binding key code code) (b : Option Binding) :
    OfBinding r key b b := by
  cases b with
  | none => exact .none
  | some b => exact .some ⟨h b.code, rfl⟩

mutual

theorem OfNode.same (h : r.IsReflexive) (n : Node) : OfNode r n n := by
  match n with
  | ⟨name, properties, bindings, children, scope, elseBranch, metadata⟩ =>
    exact .node (List.forall₂_same.mpr fun e _ => ⟨rfl, h.property e.2⟩)
      (List.forall₂_same.mpr fun e _ => ⟨rfl, .same (h.binding e.1) e.2⟩)
      (OfBranch.same h elseBranch) (OfNodes.same h children)

theorem OfBranch.same (h : r.IsReflexive) (branch : Option Node) : OfBranch r branch branch := by
  match branch with
  | none => exact .none
  | some n => exact .some (OfNode.same h n)

theorem OfNodes.same (h : r.IsReflexive) (ns : List Node) : OfNodes r ns ns := by
  match ns with
  | [] => exact .nil
  | n :: rest => exact .cons (OfNode.same h n) (OfNodes.same h rest)

end

theorem Of.same (h : r.IsReflexive) (c : Component) : Of r c c where
  hooks := by
    have hhook : ∀ code : Option Json, Option.Rel r.hook code code := by
      intro code
      cases code with
      | none => exact .none
      | some code => exact .some (h.hook code)
    exact ⟨hhook _, hhook _, List.forall₂_same.mpr fun u _ => ⟨h.hook u.code, h.deps u.deps⟩, hhook _⟩
  state := List.forall₂_same.mpr fun s _ => ⟨rfl, h.state s.2.code, rfl⟩
  refs := List.forall₂_same.mpr fun s _ => ⟨rfl, h.refArgument s.2.argument, rfl⟩
  children := .same h c.children
  rest := rfl

end Reflexive

end Rewriting

/-- What can be promised of the values of steps: what holds of a value holds of the step that does
    nothing else than give it, and steps in sequence keep the promises of both. -/
structure Promise (m : Type → Type) [Monad m] where
  Keeps {α : Type} : m α → (α → Prop) → Prop
  pure {α : Type} {a : α} {P : α → Prop} : P a → Keeps (pure a) P
  bind {α β : Type} {x : m α} {f : α → m β} {P : α → Prop} {Q : β → Prop} :
    Keeps x P → (∀ a, P a → Keeps (f a) Q) → Keeps (x >>= f) Q

/-- The value of a pass, whether or not a fault has cut it short. -/
def Pass.promise : Promise Pass where
  Keeps x P := ∀ fault, P (x fault).1
  pure h _ := h
  bind hx hf fault := hf _ (hx fault) _

/-- The value of an attempt that goes through. -/
def Attempt.promise : Promise Attempt where
  Keeps x P := ∀ a, x = .ok a → P a
  pure h a ha := by
    obtain rfl := Except.ok.inj ha
    exact h
  bind hx hf b hb := by
    obtain ⟨a, ha, hb⟩ := Attempt.bind_eq_ok.mp hb
    exact hf a (hx a ha) b hb

theorem Pass.keeps_step {α : Type} (f : α → Attempt α) (a : α) :
    Pass.promise.Keeps (Pass.step f a) fun b => f a = .ok b ∨ b = a := by
  intro fault
  cases fault with
  | some e => exact .inr rfl
  | none =>
    rw [Pass.step]
    cases h : f a with
    | ok b => exact .inl rfl
    | error e => exact .inr rfl

namespace Visitor

open Rewriting

variable {m : Type → Type} [Monad m]

/-- Each step of the visitor rewrites its snippet. -/
structure Follows (k : Promise m) (v : Visitor m) (r : Rewriting) : Prop where
  hook : ∀ code, k.Keeps (v.hook code) (r.hook code)
  deps : ∀ deps, k.Keeps (v.deps deps) (r.deps deps)
  state : ∀ code, k.Keeps (v.state code) (r.state code)
  refArgument : ∀ code, k.Keeps (v.refArgument code) (r.refArgument code)
  binding : ∀ key b, k.Keeps (v.binding key b) (OfBinding r key b)
  property : ∀ j, k.Keeps (v.property j) (r.property j)

theorem keeps_mapEntries (k : Promise m) {α : Type} {f : Text → α → m α} {R : Text → α → α → Prop}
    (h : ∀ key a, k.Keeps (f key a) (R key a)) (es : Entries α) :
    k.Keeps (mapEntries f es) (List.Forall₂ (OfEntry R) es) := by
  induction es with
  | nil => exact k.pure .nil
  | cons e es ih =>
    refine k.bind (h e.1 e.2) fun first hfirst => ?_
    refine k.bind ih fun rest hrest => ?_
    exact k.pure (.cons ⟨rfl, hfirst⟩ hrest)

theorem keeps_mapOption (k : Promise m) {α : Type} {f : α → m α} {R : α → α → Prop}
    (h : ∀ a, k.Keeps (f a) (R a)) (o : Option α) : k.Keeps (mapOption f o) (Option.Rel R o) := by
  cases o with
  | none => exact k.pure .none
  | some a => exact k.bind (h a) fun b hb => k.pure (.some hb)

variable {k : Promise m} {v : Visitor m} {r : Rewriting}

mutual

theorem keeps_visitNode (h : Follows k v r) (n : Node) : k.Keeps (visitNode v n) (OfNode r n) := by
  match n with
  | ⟨name, properties, bindings, children, scope, elseBranch, metadata⟩ =>
    rw [visitNode]
    refine k.bind (keeps_mapEntries k h.binding bindings) fun bindings' hbindings => ?_
    refine k.bind (keeps_mapEntries k (fun _ => h.property) properties) fun properties' hproperties => ?_
    refine k.bind (keeps_visitBranch h elseBranch) fun branch' hbranch => ?_
    refine k.bind (keeps_visitNodes h children) fun children' hchildren => ?_
    exact k.pure (.node hproperties hbindings hbranch hchildren)

theorem keeps_visitBranch (h : Follows k v r) (branch : Option Node) :
    k.Keeps (visitBranch v branch) (OfBranch r branch) := by
  match branch with
  | none => exact k.pure .none
  | some n => exact k.bind (keeps_visitNode h n) fun n' hn => k.pure (.some hn)

theorem keeps_visitNodes (h : Follows k v r) (ns : List Node) :
    k.Keeps (visitNodes v ns) (OfNodes r ns) := by
  match ns with
  | [] => exact k.pure .nil
  | n :: rest =>
    refine k.bind (keeps_visitNode h n) fun n' hn => ?_
    exact k.bind (keeps_visitNodes h rest) fun rest' hrest => k.pure (.cons hn hrest)

end

theorem keeps_visitUpdate (h : Follows k v r) (u : UpdateHook) :
    k.Keeps (visitUpdate v u) (OfUpdate r u) :=
  k.bind (h.hook u.code) fun _ hcode => k.bind (h.deps u.deps) fun _ hdeps => k.pure ⟨hcode, hdeps⟩

theorem keeps_visitUpdates (h : Follows k v r) (us : List UpdateHook) :
    k.Keeps (visitUpdates v us) (List.Forall₂ (OfUpdate r) us) := by
  induction us with
  | nil => exact k.pure .nil
  | cons u us ih =>
    refine k.bind (keeps_visitUpdate h u) fun u' hu => ?_
    exact k.bind ih fun rest hrest => k.pure (.cons hu hrest)

theorem keeps_visitHooks (h : Follows k v r) (hooks : Hooks) :
    k.Keeps (visitHooks v hooks) (OfHooks r hooks) := by
  refine k.bind (keeps_mapOption k h.hook hooks.onInit) fun onInit hinit => ?_
  refine k.bind (keeps_mapOption k h.hook hooks.onMount) fun onMount hmount => ?_
  refine k.bind (keeps_mapOption k h.hook hooks.onUnmount) fun onUnmount hunmount => ?_
  refine k.bind (keeps_visitUpdates h hooks.onUpdate) fun onUpdate hupdate => ?_
  exact k.pure ⟨hinit, hmount, hupdate, hunmount⟩

theorem keeps_visitState (h : Follows k v r) (s : StateValue) :
    k.Keeps (visitState v s) (OfState r s) :=
  k.bind (h.state s.code) fun _ hcode => k.pure ⟨hcode, rfl⟩

theorem keeps_visitRef (h : Follows k v r) (s : RefSpec) : k.Keeps (visitRef v s) (OfRef r s) :=
  k.bind (h.refArgument s.argument) fun _ hargument => k.pure ⟨hargument, rfl⟩

/-- A visitor whose steps rewrite snippets rewrites the component. -/
theorem keeps_visit (h : Follows k v r) (c : Component) : k.Keeps (visit v c) (Of r c) := by
  refine k.bind (keeps_visitHooks h c.hooks) fun hooks hhooks => ?_
  refine k.bind (keeps_mapEntries k (fun _ => keeps_visitState h) c.state) fun state hstate => ?_
  refine k.bind (keeps_mapEntries k (fun _ => keeps_visitRef h) c.refs) fun refs hrefs => ?_
  refine k.bind (keeps_visitNodes h c.children) fun children hchildren => ?_
  exact k.pure ⟨hhooks, hstate, hrefs, hchildren, rfl⟩

end Visitor
end ElementCompiler
