import ElementCompiler.Text.Basic

set_option autoImplicit false

/-!
Maps that keep the order in which their keys were first given. A key given again keeps its place and
takes the new value.
-/

namespace ElementCompiler

abbrev Entries (α : Type) (κ : Type := Text) := List (κ × α)

namespace Entries

variable {α β κ : Type}

def get? [BEq κ] : Entries α κ → κ → Option α
  | [], _ => none
  | (k, v) :: rest, key => if k == key then some v else get? rest key

def has [BEq κ] (es : Entries α κ) (key : κ) : Bool := (get? es key).isSome

def put [BEq κ] : Entries α κ → κ → α → Entries α κ
  | [], key, value => [(key, value)]
  | (k, v) :: rest, key, value =>
    if k == key then (k, value) :: rest else (k, v) :: put rest key value

def keys (es : Entries α κ) : List κ := es.map Prod.fst

def values (es : Entries α κ) : List α := es.map Prod.snd

def mapValues (f : α → β) (es : Entries α κ) : Entries β κ := es.map fun e => (e.1, f e.2)

theorem has_iff_mem_keys [BEq κ] [LawfulBEq κ] (es : Entries α κ) (key : κ) :
    has es key = true ↔ key ∈ keys es := by
  induction es with
  | nil => simp [has, get?, keys]
  | cons e es ih =>
    by_cases hk : e.1 = key
    · simp [has, get?, keys, hk]
    · have hne : key ≠ e.1 := Ne.symm hk
      simpa [has, get?, keys, hk, hne] using ih

theorem get?_put_self [BEq κ] [ReflBEq κ] (es : Entries α κ) (key : κ) (value : α) :
    get? (put es key value) key = some value := by
  induction es with
  | nil => simp [put, get?]
  | cons e es ih => by_cases h : (e.1 == key) = true <;> simp [put, get?, h, ih]

theorem get?_put_of_ne [BEq κ] [EquivBEq κ] {key other : κ} (h : (key == other) = false)
    (es : Entries α κ) (value : α) : get? (put es key value) other = get? es other := by
  induction es with
  | nil => simp [put, get?, h]
  | cons e es ih =>
    by_cases hk : (e.1 == key) = true
    · have ho : (e.1 == other) = false := by
        rw [BEq.congr_left hk]
        exact h
      simp [put, get?, hk, ho]
    · simp [put, get?, hk, ih]

theorem keys_put_of_has [BEq κ] {es : Entries α κ} {key : κ} (h : has es key = true) (value : α) :
    keys (put es key value) = keys es := by
  induction es with
  | nil => simp [has, get?] at h
  | cons e es ih =>
    by_cases hk : (e.1 == key) = true
    · simp [put, keys, hk]
    · have hr : has es key = true := by simpa [has, get?, hk] using h
      simpa [put, keys, hk] using ih hr

end Entries
end ElementCompiler
