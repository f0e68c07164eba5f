import ElementCompiler.Fault
import Mathlib.Data.List.Forall2

set_option autoImplicit false

/-!
Attempts step by step: what a successful sequence of steps says about each of them, for two steps and
along a list.
-/

namespace ElementCompiler.Attempt

variable {α β : Type}

theorem ok_bind (a : α) (f : α → Attempt β) : (Except.ok a >>= f) = f a := rfl

theorem bind_eq_ok {x : Attempt α} {f : α → Attempt β} {b : β} :
    (x >>= f) = .ok b ↔ ∃ a, x = .ok a ∧ f a = .ok b := by
  cases x with
  | error e =>
    constructor
    · intro h
      cases h
    · rintro ⟨a, ha, _⟩
      cases ha
  | ok a =>
    constructor
    · intro h
      exact ⟨a, rfl, h⟩
    · rintro ⟨a', ha, hb⟩
      cases ha
      exact hb

/-- Two steps fail when the first does, or the second behind it. -/
theorem bind_eq_error {x : Attempt α} {f : α → Attempt β} {e : Fault} :
    (x >>= f) = .error e ↔ x = .error e ∨ ∃ a, x = .ok a ∧ f a = .error e := by
  cases x with
  | error e' =>
    change Except.error e' = Except.error e ↔ _
    simp
  | ok a =>
    change f a = .error e ↔ _
    simp

/-- What would be shown for the fault of an attempt. -/
def report? : Attempt α → Option Report
  | .ok _ => none
  | .error f => some f.report

theorem exists_of_report? {x : Attempt α} {r : Report} (h : report? x = some r) :
    ∃ f, x = .error f ∧ f.report = r := by
  cases x with
  | ok a => cases h
  | error f => exact ⟨f, rfl, Option.some.inj h⟩

/-- A list is gone through when each step succeeds, and the results stand in its order. -/
theorem mapM_eq_ok {f : α → Attempt β} {as : List α} {bs : List β} :
    as.mapM f = .ok bs ↔ List.Forall₂ (fun a b => f a = .ok b) as bs := by
  induction as generalizing bs with
  | nil =>
    rw [List.mapM_nil, List.forall₂_nil_left_iff]
    exact ⟨fun h => (Except.ok.inj h).symm, fun h => by rw [h]; rfl⟩
  | cons a as ih =>
    rw [List.mapM_cons, bind_eq_ok]
    constructor
    · rintro ⟨b, hb, h⟩
      obtain ⟨bs, hbs, h⟩ := bind_eq_ok.mp h
      obtain rfl := Except.ok.inj h
      exact .cons hb (ih.mp hbs)
    · intro h
      cases h with
      | @cons _ b _ bs hb hbs => exact ⟨b, hb, bind_eq_ok.mpr ⟨bs, ih.mpr hbs, rfl⟩⟩

theorem mapM_map_of_mem {γ : Type} {f : α → Attempt β} {g : γ → α} {k : γ → β} {cs : List γ}
    (h : ∀ c ∈ cs, f (g c) = .ok (k c)) : (cs.map g).mapM f = .ok (cs.map k) := by
  rw [mapM_eq_ok, List.forall₂_map_left_iff, List.forall₂_map_right_iff]
  exact List.forall₂_same.mpr h

/-- What stands in the second of two related lists has its partner in the first. -/
theorem exists_left {R : α → β → Prop} {as : List α} {bs : List β} (h : List.Forall₂ R as bs) :
    ∀ b ∈ bs, ∃ a ∈ as, R a b := by
  induction h with
  | nil =>
    intro b hb
    cases hb
  | @cons a b as bs hab _ ih =>
    intro b' hb'
    rcases List.mem_cons.mp hb' with rfl | hb'
    · exact ⟨a, List.mem_cons_self, hab⟩
    · obtain ⟨a', ha', hab'⟩ := ih b' hb'
      exact ⟨a', List.mem_cons_of_mem a ha', hab'⟩

theorem exists_right {R : α → β → Prop} {as : List α} {bs : List β} (h : List.Forall₂ R as bs) :
    ∀ a ∈ as, ∃ b ∈ bs, R a b := exists_left h.flip

/-- Two steps go through when the first does, and the second from whatever it gives. -/
theorem exists_bind {x : Attempt α} {f : α → Attempt β} (hx : ∃ a, x = .ok a)
    (hf : ∀ a, x = .ok a → ∃ b, f a = .ok b) : ∃ b, (x >>= f) = .ok b := by
  obtain ⟨a, ha⟩ := hx
  obtain ⟨b, hb⟩ := hf a ha
  exact ⟨b, bind_eq_ok.mpr ⟨a, ha, hb⟩⟩

/-- Two steps go through exactly when the first does, and the second whatever the first gives. -/
theorem exists_seq {x : Attempt α} {f : α → Attempt β} {P : Prop}
    (h : ∀ a, (∃ b, f a = .ok b) ↔ P) :
    (∃ b, (x >>= f) = .ok b) ↔ (∃ a, x = .ok a) ∧ P := by
  constructor
  · rintro ⟨b, hb⟩
    obtain ⟨a, ha, hb⟩ := bind_eq_ok.mp hb
    exact ⟨⟨a, ha⟩, (h a).mp ⟨b, hb⟩⟩
  · rintro ⟨hx, hp⟩
    exact exists_bind hx fun a _ => (h a).mpr hp

theorem exists_return {x : Attempt α} (f : α → β) :
    (∃ b, (x >>= fun a => .ok (f a)) = .ok b) ↔ ∃ a, x = .ok a := by
  constructor
  · rintro ⟨b, hb⟩
    obtain ⟨a, ha, _⟩ := bind_eq_ok.mp hb
    exact ⟨a, ha⟩
  · rintro ⟨a, ha⟩
    exact ⟨f a, bind_eq_ok.mpr ⟨a, ha, rfl⟩⟩

/-- A list is gone through when each step gives something of a form, and then the results are a list
    of that form. -/
theorem exists_mapM_map {γ : Type} {f : α → Attempt β} {g : γ → β} {P : γ → Prop} {as : List α}
    (h : ∀ a ∈ as, ∃ x, f a = .ok (g x) ∧ P x) :
    ∃ xs : List γ, as.mapM f = .ok (xs.map g) ∧ ∀ x ∈ xs, P x := by
  induction as with
  | nil => exact ⟨[], rfl, fun x hx => absurd hx List.not_mem_nil⟩
  | cons a as ih =>
    obtain ⟨x, hx, hp⟩ := h a List.mem_cons_self
    obtain ⟨xs, hxs, hps⟩ := ih fun a ha => h a (List.mem_cons_of_mem _ ha)
    refine ⟨x :: xs, ?_, List.forall_mem_cons.mpr ⟨hp, hps⟩⟩
    rw [List.mapM_cons, hx, ok_bind, hxs]
    rfl

theorem exists_mapM_forall {f : α → Attempt β} {P : β → Prop} {as : List α}
    (h : ∀ a ∈ as, ∃ b, f a = .ok b ∧ P b) : ∃ bs, as.mapM f = .ok bs ∧ ∀ b ∈ bs, P b := by
  obtain ⟨bs, hbs, hp⟩ := exists_mapM_map (g := id) h
  exact ⟨bs, by rw [hbs, List.map_id], hp⟩

theorem exists_mapM {f : α → Attempt β} {as : List α} (h : ∀ a ∈ as, ∃ b, f a = .ok b) :
    ∃ bs, as.mapM f = .ok bs := by
  obtain ⟨bs, hbs, _⟩ := exists_mapM_forall (P := fun _ => True) fun a ha => by
    obtain ⟨b, hb⟩ := h a ha
    exact ⟨b, hb, trivial⟩
  exact ⟨bs, hbs⟩

end ElementCompiler.Attempt
