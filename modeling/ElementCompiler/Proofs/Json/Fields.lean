import ElementCompiler.Component.Encode
import ElementCompiler.Json.Access
import ElementCompiler.Proofs.Attempt
import ElementCompiler.Proofs.Entries

set_option autoImplicit false

/-!
Fields of objects that were written from texts and values: what is asked for by a text is what was
written by it, also where null was left out.
-/

namespace ElementCompiler

namespace Entries

theorem get?_text (fields : Entries Json) (key : Text) :
    get? (fields.map fun f => (Key.text f.1, f.2)) (Key.text key) = get? fields key := by
  induction fields with
  | nil => rfl
  | cons f fs ih =>
    by_cases h : f.1 = key
    · simp [get?, h]
    · have hk : (Key.text f.1 == Key.text key) = false := by
        rw [Bool.eq_false_iff, ne_eq, Key.text_beq_text]
        exact h
      simp only [List.map_cons, get?, hk, ih]
      simp [h]

/-- A key that is there once is asked for among what is left as among everything. -/
theorem get?_filter (p : Json → Bool) {fields : Entries Json} (h : (keys fields).Nodup) (key : Text) :
    get? (fields.filter fun f => p f.2) key = (get? fields key).filter p := by
  induction fields with
  | nil => rfl
  | cons f fs ih =>
    obtain ⟨hfirst, hrest⟩ := List.nodup_cons.mp h
    have hstep := ih hrest
    by_cases hk : f.1 = key
    · by_cases hp : p f.2 = true
      · simp [get?, hp, hk, Option.filter]
      · have hnone : get? fs key = none := get?_eq_none (hk ▸ hfirst)
        rw [List.filter_cons_of_neg (by simpa using hp), hstep, hnone]
        simp [get?, hk, hp, Option.filter]
    · by_cases hp : p f.2 = true
      · rw [List.filter_cons_of_pos (by simpa using hp)]
        simpa [get?, hk] using hstep
      · rw [List.filter_cons_of_neg (by simpa using hp), hstep]
        simp [get?, hk]

end Entries

namespace Json

theorem fieldD_object (fields : Entries Json) (key : Text) (default : Json) :
    (object fields).fieldD key default = .ok ((Entries.get? fields key).getD default) := by
  change Except.ok ((Entries.get? (fields.map fun f => (Key.text f.1, f.2)) (.text key)).getD default) = _
  rw [Entries.get?_text]

theorem entries_object (fields : Entries Json) : (object fields).entries = .ok fields := by
  rw [object, entries, Attempt.mapM_eq_ok]
  induction fields with
  | nil => exact .nil
  | cons f fs ih => exact .cons rfl ih

/-- Fields that are null were left out: they are missing. -/
theorem fieldD_sparse {fields : Entries Json} (h : (Entries.keys fields).Nodup) (key : Text)
    (default : Json) : (Encode.sparse fields).fieldD key default =
      .ok (((Entries.get? fields key).filter fun j => !j.isNull).getD default) := by
  rw [Encode.sparse, fieldD_object, Entries.get?_filter (fun j => !j.isNull) h]

/-- A field that null stands for when it is missing is as it was before null was left out. -/
theorem field_sparse {fields : Entries Json} (h : (Entries.keys fields).Nodup) (key : Text) :
    (Encode.sparse fields).field key = .ok ((Entries.get? fields key).getD .null) := by
  rw [field, fieldD_sparse h]
  cases Entries.get? fields key with
  | none => rfl
  | some j => cases j <;> rfl

theorem orElse_obj (fields : Entries Json Key) : (Json.obj fields).orElse (.obj []) = .obj fields := by
  cases fields <;> rfl

theorem orElse_arr (items : List Json) : (Json.arr items).orElse (.arr []) = .arr items := by
  cases items <;> rfl

end Json

end ElementCompiler
