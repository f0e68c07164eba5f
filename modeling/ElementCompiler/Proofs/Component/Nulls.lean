import ElementCompiler.Proofs.Component.NullWord
import ElementCompiler.Proofs.Component.Shapes

set_option autoImplicit false

/-!
Components that are read from values without nulls where they would be shown. Code, literal attributes and
defaults are read as text whatever they are, and what stands in a component as it was given is shown so; a
null in such a place shows as a word. Everywhere else a null is as good as nothing.
-/

namespace ElementCompiler

open Attempt

namespace Json

/-- There is no null in the value. -/
def Filled (j : Json) : Prop := j.holdsNull = false

variable {j : Json}

theorem NullFree.shows (h : j.NullFree) (hfilled : j.Filled) : j.ShowsNullFree := h.display hfilled

theorem nullFree_emptyObj : NullFree (.obj []) := by rintro _ ⟨⟩

theorem NullFree.getD {o : Option Json} {default : Json} (h : ∀ j, o = some j → j.NullFree)
    (hdefault : default.NullFree) : (o.getD default).NullFree := by
  cases o with
  | none => exact hdefault
  | some j => exact h j rfl

theorem NullFree.asKey {key : Key} (h : j.NullFree) (hkey : j.asKey = .ok key) : (ofKey key).NullFree := by
  cases j with
  | str s => exact Except.ok.inj hkey ▸ h
  | arr items => cases hkey
  | obj fields => cases hkey
  | _ =>
    obtain rfl := Except.ok.inj hkey
    rintro _ ⟨⟩

theorem nullFree_put {fields : Entries Json Key} (h : NullFree (.obj fields)) {key : Key}
    (hkey : (ofKey key).NullFree) (hj : j.NullFree) : NullFree (.obj (Entries.put fields key j)) := by
  have hname : ∀ s, key = .text s → Text.NullFree s := by
    rintro s rfl
    exact nullFree_str.mp hkey
  rw [nullFree_obj] at h ⊢
  induction fields with
  | nil => exact List.forall_mem_singleton.mpr ⟨hname, hj⟩
  | cons f rest ih =>
    obtain ⟨hf, hrest⟩ := List.forall_mem_cons.mp h
    rw [Entries.put]
    split
    · exact List.forall_mem_cons.mpr ⟨⟨hf.1, hj⟩, hrest⟩
    · exact List.forall_mem_cons.mpr ⟨hf, ih hrest⟩

theorem nullFree_pairsFrom {index : Nat} {done fields : Entries Json Key} {items : List Json}
    (h : pairsFrom index done items = .ok fields) (hdone : NullFree (.obj done))
    (hitems : ∀ j ∈ items, j.NullFree) : NullFree (.obj fields) := by
  induction items generalizing index done with
  | nil => exact Except.ok.inj h ▸ hdone
  | cons j rest ih =>
    obtain ⟨hj, hrest⟩ := List.forall_mem_cons.mp hitems
    rw [pairsFrom] at h
    split at h
    next => cases h
    next k value hpair =>
      obtain ⟨key, hkey, h⟩ := bind_eq_ok.mp h
      have hmembers := hj.members
      rw [members, hpair] at hmembers
      obtain ⟨hk, hvalue⟩ := List.forall_mem_cons.mp hmembers
      exact ih h (nullFree_put hdone (hk.asKey hkey) (List.forall_mem_singleton.mp hvalue)) hrest
    next => cases h

theorem NullFree.toFields {fields : Entries Json Key} (h : j.NullFree) (hfields : j.toFields = .ok fields) :
    NullFree (.obj fields) := by
  unfold Json.toFields at hfields
  split at hfields
  next => exact Except.ok.inj hfields ▸ h
  next =>
    obtain ⟨items, hitems, hfields⟩ := bind_eq_ok.mp hfields
    have hmembers := h.members
    rw [members_of_items hitems] at hmembers
    exact nullFree_pairsFrom hfields nullFree_emptyObj hmembers

end Json

namespace Decode

open Json

section Parts

variable {fields : Entries Json Key} {key : Text} {j : Json} {p : Json → Prop}

variable (hfree : NullFree (.obj fields))
include hfree

end Parts

section Code

variable {j : Json}

end Code

section Nodes

variable {fields : Entries Json Key} (hfree : NullFree (.obj fields))

include hfree

end Nodes

section Hooks

variable {j : Json}

end Hooks

section Contexts

variable {j : Json}

end Contexts

section Records

variable {j : Json}

end Records

end Decode
end ElementCompiler
