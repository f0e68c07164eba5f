import ElementCompiler.Json.Access
import ElementCompiler.Proofs.Attempt

set_option autoImplicit false

/-!
The shapes that values must have where they are taken apart. An attempt demands a shape when it goes
through only under it and refuses with a message whatever else is wrong then; without the shape the
value may reach an operation that its kind does not have.
-/

namespace ElementCompiler

/-- The categories of faults from values and bytes that nothing checked before they were used. -/
def Category.isCrash : Category → Bool
  | .value | .kind | .operation | .encoding => true
  | _ => false

namespace Attempt

variable {α β γ : Type}

/-- An attempt goes through only under its demand, and under it every fault is one of
    serialization. -/
def Demands (x : Attempt α) (p : Prop) : Prop :=
  match x with
  | .ok _ => p
  | .error f => f.report.category = .serialization ∨ ¬p ∧ f.report.category.isCrash = true

namespace Demands

theorem ok (a : α) : Demands (.ok a) True := trivial

theorem refused {f : Fault} {p : Prop} (h : f.report.category = .serialization) :
    Demands (.error f : Attempt α) p := .inl h

theorem crash {f : Fault} (h : f.report.category.isCrash = true) :
    Demands (.error f : Attempt α) False := .inr ⟨id, h⟩

theorem of_iff {x : Attempt α} {p q : Prop} (h : Demands x p) (hpq : p ↔ q) : Demands x q :=
  propext hpq ▸ h

theorem bind {x : Attempt α} {f : α → Attempt β} {p q : Prop} (hx : Demands x p)
    (hf : ∀ a, x = .ok a → Demands (f a) q) : Demands (x >>= f) (p ∧ q) := by
  cases x with
  | error e => exact hx.imp_right fun h => ⟨fun hpq => h.1 hpq.1, h.2⟩
  | ok a =>
    have hstep : Demands (f a) q := hf a rfl
    change Demands (f a) (p ∧ q)
    cases hfa : f a with
    | ok b =>
      rw [hfa] at hstep
      exact ⟨hx, hstep⟩
    | error e =>
      rw [hfa] at hstep
      exact hstep.imp_right fun h => ⟨fun hpq => h.1 hpq.2, h.2⟩

/-- Two steps that are taken together, with more to follow. -/
theorem bind_bind {x : Attempt α} {f : α → Attempt β} {g : β → Attempt γ} {p q : Prop}
    (hx : Demands (x >>= f) p) (hg : ∀ b, Demands (g b) q) :
    Demands (x >>= fun a => f a >>= g) (p ∧ q) := by
  rw [← bind_assoc]
  exact hx.bind fun b _ => hg b

theorem mapM {f : α → Attempt β} {p : α → Prop} {as : List α} (h : ∀ a ∈ as, Demands (f a) (p a)) :
    Demands (as.mapM f) (∀ a ∈ as, p a) := by
  induction as with
  | nil => exact (ok []).of_iff (by simp)
  | cons a as ih =>
    rw [List.mapM_cons]
    have hrest := ih fun b hb => h b (List.mem_cons_of_mem a hb)
    exact ((h a List.mem_cons_self).bind fun _ _ => hrest.bind fun _ _ => ok _).of_iff (by simp)

theorem mapM_option {f : α → Attempt β} {p : α → Prop} {o : Option α}
    (h : ∀ a, o = some a → Demands (f a) (p a)) :
    Demands (o.mapM f) (∀ a, o = some a → p a) := by
  cases o with
  | none => exact (ok none).of_iff (by simp)
  | some a =>
    rw [Option.mapM_some]
    exact ((h a rfl).bind fun _ _ => ok _).of_iff (by simp)

end Demands
end Attempt

namespace Json

open Attempt (Demands)

/-- The field of an object, null when it is missing. -/
def part (fields : Entries Json Key) (key : Text) : Json :=
  (Entries.get? fields (.text key)).getD .null

/-- What a value is gone through by; nothing for a value without items. -/
def members (j : Json) : List Json := j.items?.getD []

/-- A shape that only a given value must have. -/
def Given (p : Json → Prop) (j : Json) : Prop := j.isGiven = true → p j

def WithFields (p : Entries Json Key → Prop) : Json → Prop
  | .obj fields => p fields
  | _ => False

def IsObject : Json → Prop := WithFields fun _ => True

/-- A list of values of a shape, or a text or an object for it. -/
def EachItem (p : Json → Prop) (j : Json) : Prop :=
  j.items?.isSome = true ∧ ∀ item ∈ j.members, p item

def HasItems : Json → Prop := EachItem fun _ => True

/-- An object with texts for keys and values of a shape. -/
def EachField (p : Json → Prop) : Json → Prop :=
  WithFields fun fields => ∀ f ∈ fields, f.1.text?.isSome = true ∧ p f.2

theorem eachItem_nil (p : Json → Prop) : EachItem p (.arr []) :=
  ⟨rfl, fun _ h => absurd h List.not_mem_nil⟩

theorem eachField_nil (p : Json → Prop) : EachField p (.obj []) :=
  fun _ h => absurd h List.not_mem_nil

def IsPair (j : Json) : Prop := ∃ k v, j.items? = some [k, v] ∧ k.isKey = true

/-- An object, or its fields as pairs. -/
def IsMapping : Json → Prop
  | .obj _ => True
  | j => EachItem IsPair j

theorem fieldD_obj (fields : Entries Json Key) (key : Text) (default : Json) :
    (obj fields).fieldD key default = .ok ((Entries.get? fields (.text key)).getD default) := rfl

theorem field_obj (fields : Entries Json Key) (key : Text) :
    (obj fields).field key = .ok (part fields key) := rfl

/-- A value that stands for one that is not given makes no demand when the default has the shape. -/
theorem orElse_demands {α : Type} {f : Json → Attempt α} {p : Json → Prop}
    (h : ∀ j, Demands (f j) (p j)) (j default : Json) (hdefault : p default) :
    Demands (f (j.orElse default)) (Given p j) := by
  unfold orElse
  split
  next hj => exact (h j).of_iff ⟨fun hp _ => hp, fun hp => hp hj⟩
  next hj => exact (h default).of_iff ⟨fun _ hj' => absurd hj' hj, fun _ => hdefault⟩

theorem items_demands (j : Json) : Demands j.items (j.items?.isSome = true) := by
  rw [items]
  cases j.items? with
  | none => exact (Demands.crash rfl).of_iff (by simp)
  | some items => exact (Demands.ok items).of_iff (by simp)

theorem members_of_items {j : Json} {items : List Json} (h : j.items = .ok items) :
    j.members = items := by
  rw [Json.items] at h
  rw [members]
  cases hitems : j.items? with
  | none =>
    rw [hitems] at h
    cases h
  | some found =>
    rw [hitems] at h
    exact Except.ok.inj h

/-- A value that is not given has no members, like the list that stands for it. -/
theorem members_orElse (j : Json) : (j.orElse (.arr [])).members = j.members := by
  unfold orElse
  split
  next => rfl
  next hgiven =>
    cases j with
    | str s =>
      have hs : s = [] := by simpa [isGiven] using hgiven
      rw [hs]
      rfl
    | arr items =>
      have hitems : items = [] := by simpa [isGiven] using hgiven
      rw [hitems]
    | obj fields =>
      have hfields : fields = [] := by simpa [isGiven] using hgiven
      rw [hfields]
      rfl
    | _ => rfl

theorem hasItems_demands (j : Json) : Demands j.items (HasItems j) :=
  (items_demands j).of_iff ⟨fun h => ⟨h, fun _ _ => trivial⟩, fun h => h.1⟩

theorem eachItem_demands {α : Type} {f : Json → Attempt α} {p : Json → Prop} {j : Json}
    (h : ∀ item ∈ j.members, Demands (f item) (p item)) :
    Demands (j.items >>= fun items => items.mapM f) (EachItem p j) :=
  (items_demands j).bind fun _ hitems => by
    obtain rfl := members_of_items hitems
    exact .mapM h

theorem asKey_demands (j : Json) : Demands j.asKey (j.isKey = true) := by
  rw [asKey, isKey]
  cases j.key? with
  | none => exact (Demands.crash rfl).of_iff (by simp)
  | some key => exact (Demands.ok key).of_iff (by simp)

theorem pairsFrom_demands (index : Nat) (done : Entries Json Key) (items : List Json) :
    Demands (pairsFrom index done items) (∀ item ∈ items, IsPair item) := by
  induction items generalizing index done with
  | nil => exact (Demands.ok done).of_iff (by simp)
  | cons j rest ih =>
    rw [pairsFrom, List.forall_mem_cons]
    split
    next hitems =>
      refine (Demands.crash rfl).of_iff ⟨False.elim, ?_⟩
      rintro ⟨⟨k, v, hpair, _⟩, _⟩
      rw [hitems] at hpair
      cases hpair
    next k v hitems =>
      have hkey : k.isKey = true ↔ IsPair j := by
        refine ⟨fun hk => ⟨k, v, hitems, hk⟩, ?_⟩
        rintro ⟨k', v', hpair, hk'⟩
        rw [hitems] at hpair
        cases hpair
        exact hk'
      exact ((asKey_demands k).of_iff hkey).bind fun key _ => ih _ _
    next items hnot hitems =>
      refine (Demands.crash rfl).of_iff ⟨False.elim, ?_⟩
      rintro ⟨⟨k, v, hpair, _⟩, _⟩
      rw [hitems] at hpair
      exact hnot k v (Option.some.inj hpair)

theorem toFields_demands (j : Json) : Demands j.toFields (IsMapping j) := by
  cases j with
  | obj fields => exact .ok fields
  | _ =>
    refine (items_demands _).bind fun items hitems => ?_
    obtain rfl := members_of_items hitems
    exact pairsFrom_demands _ _ _

/-- What was read from an object has its values in their order. -/
theorem values_of_entries {fields : Entries Json Key} {entries : Entries Json}
    (h : (obj fields).entries = .ok entries) :
    entries.map (fun e => e.2) = fields.map (fun f => f.2) := by
  have heach := Attempt.mapM_eq_ok.mp h
  clear h
  induction heach with
  | nil => rfl
  | @cons f e fields entries hfirst _ ih =>
    have hvalue : e.2 = f.2 := by
      cases hkey : f.1.text? with
      | none =>
        rw [hkey] at hfirst
        cases hfirst
      | some key =>
        rw [hkey] at hfirst
        cases hfirst
        rfl
    rw [List.map_cons, List.map_cons, hvalue, ih]

theorem entries_demands (fields : Entries Json Key) :
    Demands (obj fields).entries (∀ f ∈ fields, f.1.text?.isSome = true) := by
  refine Demands.mapM fun f _ => ?_
  cases f.1.text? with
  | none => exact (Demands.crash rfl).of_iff (by simp)
  | some key => exact (Demands.ok _).of_iff (by simp)

theorem hasFields_demands (j : Json) : Demands j.entries (EachField (fun _ => True) j) := by
  cases j with
  | obj fields => exact (entries_demands fields).of_iff (by simp [EachField, WithFields])
  | _ => exact Demands.crash rfl

theorem eachField_demands {α : Type} {f : Entries Json → Attempt α} {p : Json → Prop}
    (h : ∀ entries, Demands (f entries) (∀ e ∈ entries, p e.2)) (j : Json) :
    Demands (j.entries >>= f) (EachField p j) := by
  cases j with
  | obj fields =>
    refine ((entries_demands fields).bind (q := ∀ field ∈ fields, p field.2)
      fun entries hentries => (h entries).of_iff ?_).of_iff ?_
    · have hvalues := congrArg (fun values => ∀ v ∈ values, p v) (values_of_entries hentries)
      simpa only [List.forall_mem_map] using Iff.of_eq hvalues
    · exact ⟨fun ⟨hkeys, hp⟩ f hf => ⟨hkeys f hf, hp f hf⟩,
        fun hall => ⟨fun f hf => (hall f hf).1, fun f hf => (hall f hf).2⟩⟩
  | _ => exact Demands.crash rfl

end Json

end ElementCompiler
