import ElementCompiler.Component.Visitor
import ElementCompiler.Proofs.Attempt

set_option autoImplicit false

/-!
A pass that stops at its first fault, as an attempt: the same visit with the same steps, where the
fault ends the visit instead of being carried along.
-/

namespace ElementCompiler

namespace Pass

variable {α β : Type}

/-- The pass leaves a fault as it is, and without one it gives what the attempt gives. -/
structure Runs (x : Pass α) (a : Attempt α) : Prop where
  after : ∀ e, ∃ b, x (some e) = (b, some e)
  ok : ∀ b, a = .ok b → x none = (b, none)
  error : ∀ e, a = .error e → ∃ b, x none = (b, some e)

theorem runs_pure (b : α) : Runs (pure b) (pure b) where
  after e := ⟨b, rfl⟩
  ok := by
    rintro _ ⟨⟩
    rfl
  error := by
    rintro _ ⟨⟩

theorem runs_step (f : α → Attempt α) (a : α) : Runs (step f a) (f a) where
  after e := ⟨a, rfl⟩
  ok b h := by rw [step, h]
  error e h := ⟨a, by rw [step, h]⟩

theorem Runs.bind {x : Pass α} {a : Attempt α} (hx : x.Runs a) {f : α → Pass β}
    {g : α → Attempt β} (hf : ∀ b, (f b).Runs (g b)) : Runs (x >>= f) (a >>= g) where
  after e := by
    obtain ⟨b, hb⟩ := hx.after e
    obtain ⟨c, hc⟩ := (hf b).after e
    refine ⟨c, ?_⟩
    change f (x (some e)).1 (x (some e)).2 = _
    rw [hb, hc]
  ok c h := by
    obtain ⟨b, hb, hc⟩ := Attempt.bind_eq_ok.mp h
    change f (x none).1 (x none).2 = _
    rw [hx.ok b hb, (hf b).ok c hc]
  error e h := by
    change ∃ c, f (x none).1 (x none).2 = _
    cases ha : a with
    | ok b =>
      rw [hx.ok b ha]
      rw [ha] at h
      exact (hf b).error e h
    | error e' =>
      obtain ⟨b, hb⟩ := hx.error e' ha
      rw [hb]
      rw [ha] at h
      obtain rfl := Except.error.inj h
      exact (hf b).after e'

end Pass

namespace Visitor

open Pass (runs_pure)

/-- Each step of the pass is an attempt of the other visitor. -/
structure Runs (p : Visitor Pass) (v : Visitor Attempt) : Prop where
  hook : ∀ code, (p.hook code).Runs (v.hook code)
  deps : ∀ deps, (p.deps deps).Runs (v.deps deps)
  state : ∀ code, (p.state code).Runs (v.state code)
  refArgument : ∀ code, (p.refArgument code).Runs (v.refArgument code)
  binding : ∀ key b, (p.binding key b).Runs (v.binding key b)
  property : ∀ j, (p.property j).Runs (v.property j)

theorem runs_mapEntries {α β : Type} {f : Text → α → Pass β} {g : Text → α → Attempt β}
    (h : ∀ key a, (f key a).Runs (g key a)) (es : Entries α) :
    (mapEntries f es).Runs (mapEntries g es) := by
  induction es with
  | nil => exact runs_pure []
  | cons e es ih =>
    exact (h e.1 e.2).bind fun first => ih.bind fun rest => runs_pure ((e.1, first) :: rest)

theorem runs_mapOption {α β : Type} {f : α → Pass β} {g : α → Attempt β}
    (h : ∀ a, (f a).Runs (g a)) (o : Option α) : (mapOption f o).Runs (mapOption g o) := by
  cases o with
  | none => exact runs_pure none
  | some a => exact (h a).bind fun b => runs_pure (some b)

variable {p : Visitor Pass} {v : Visitor Attempt}

mutual

theorem runs_visitNode (h : p.Runs v) (n : Node) : (visitNode p n).Runs (visitNode v n) := by
  match n with
  | ⟨name, properties, bindings, children, scope, elseBranch, metadata⟩ =>
    rw [visitNode, visitNode]
    refine (runs_mapEntries h.binding bindings).bind fun bindings => ?_
    refine (runs_mapEntries (fun _ => h.property) properties).bind fun properties => ?_
    refine (runs_visitBranch h elseBranch).bind fun elseBranch => ?_
    refine (runs_visitNodes h children).bind fun children => ?_
    exact runs_pure _

theorem runs_visitBranch (h : p.Runs v) (branch : Option Node) :
    (visitBranch p branch).Runs (visitBranch v branch) := by
  match branch with
  | none => exact runs_pure none
  | some n => exact (runs_visitNode h n).bind fun m => runs_pure (some m)

theorem runs_visitNodes (h : p.Runs v) (ns : List Node) :
    (visitNodes p ns).Runs (visitNodes v ns) := by
  match ns with
  | [] => exact runs_pure []
  | n :: rest =>
    exact (runs_visitNode h n).bind fun m =>
      (runs_visitNodes h rest).bind fun ms => runs_pure (m :: ms)

end

theorem runs_visitUpdates (h : p.Runs v) (us : List UpdateHook) :
    (visitUpdates p us).Runs (visitUpdates v us) := by
  induction us with
  | nil => exact runs_pure []
  | cons u us ih =>
    have hfirst : (visitUpdate p u).Runs (visitUpdate v u) :=
      (h.hook u.code).bind fun code => (h.deps u.deps).bind fun deps => runs_pure _
    exact hfirst.bind fun first => ih.bind fun rest => runs_pure (first :: rest)

theorem runs_visitHooks (h : p.Runs v) (hooks : Hooks) :
    (visitHooks p hooks).Runs (visitHooks v hooks) := by
  refine (runs_mapOption h.hook hooks.onInit).bind fun onInit => ?_
  refine (runs_mapOption h.hook hooks.onMount).bind fun onMount => ?_
  refine (runs_mapOption h.hook hooks.onUnmount).bind fun onUnmount => ?_
  refine (runs_visitUpdates h hooks.onUpdate).bind fun onUpdate => ?_
  exact runs_pure _

theorem runs_visit (h : p.Runs v) (c : Component) : (visit p c).Runs (visit v c) := by
  refine (runs_visitHooks h c.hooks).bind fun hooks => ?_
  refine (runs_mapEntries (fun _ s => (h.state s.code).bind fun code =>
    runs_pure _) c.state).bind fun state => ?_
  refine (runs_mapEntries (fun _ r => (h.refArgument r.argument).bind fun argument =>
    runs_pure _) c.refs).bind fun refs => ?_
  refine (runs_visitNodes h c.children).bind fun children => ?_
  exact runs_pure _

theorem edit_toAttempt (h : p.Runs v) (c : Component) :
    (p.edit c).toAttempt = visit v c := by
  have hruns := runs_visit h c
  cases hvisit : visit v c with
  | ok c' =>
    rw [edit, hruns.ok c' hvisit]
    rfl
  | error e =>
    obtain ⟨c', hc'⟩ := hruns.error e hvisit
    rw [edit, hc']
    rfl

end Visitor
end ElementCompiler
