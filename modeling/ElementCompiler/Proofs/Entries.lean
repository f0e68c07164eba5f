import ElementCompiler.Entries

set_option autoImplicit false

/-!
Maps that are filled key by key. A new key goes to the end, and filling in distinct keys in order
gives back the entries that were filled in.
-/

namespace ElementCompiler.Entries

variable {α κ : Type} [BEq κ]

theorem put_of_not_has {es : Entries α κ} {key : κ} (h : has es key = false) (value : α) :
    put es key value = es ++ [(key, value)] := by
  induction es with
  | nil => rfl
  | cons e es ih =>
    by_cases hk : (e.1 == key) = true
    · simp [has, get?, hk] at h
    · have hes : has es key = false := by simpa [has, get?, hk] using h
      simp [put, hk, ih hes]

theorem put_put [ReflBEq κ] (es : Entries α κ) (key : κ) (value new : α) :
    put (put es key value) key new = put es key new := by
  induction es with
  | nil => simp [put]
  | cons e es ih => by_cases hk : (e.1 == key) = true <;> simp [put, hk, ih]

theorem mem_keys_put {es : Entries α κ} {key : κ} {value : α} {k : κ}
    (h : k ∈ keys (put es key value)) : k ∈ keys es ∨ k = key := by
  cases hhas : has es key with
  | true =>
    rw [keys_put_of_has hhas] at h
    exact Or.inl h
  | false =>
    rw [put_of_not_has hhas, keys, List.map_append, List.mem_append] at h
    exact h.imp_right List.mem_singleton.mp

theorem mem_of_get? {es : Entries α κ} {key : κ} {value : α} (h : get? es key = some value) :
    ∃ k, (k, value) ∈ es := by
  induction es with
  | nil => cases h
  | cons e es ih =>
    obtain ⟨k, v⟩ := e
    rw [get?] at h
    split at h
    next =>
      obtain rfl := Option.some.inj h
      exact ⟨k, List.mem_cons_self⟩
    next =>
      obtain ⟨k', hk'⟩ := ih h
      exact ⟨k', List.mem_cons_of_mem _ hk'⟩

theorem get?_of_mem [LawfulBEq κ] {es : Entries α κ} (hdistinct : (keys es).Nodup) {key : κ} {value : α}
    (h : (key, value) ∈ es) : get? es key = some value := by
  induction es with
  | nil => cases h
  | cons e es ih =>
    obtain ⟨k, v⟩ := e
    obtain ⟨hfirst, hrest⟩ := List.nodup_cons.mp hdistinct
    rw [get?]
    rcases List.mem_cons.mp h with hsame | h
    · obtain ⟨rfl, rfl⟩ := Prod.mk.inj hsame
      rw [if_pos BEq.rfl]
    · have hne : k ≠ key := by
        rintro rfl
        exact hfirst (List.mem_map.mpr ⟨_, h, rfl⟩)
      rw [if_neg (by simpa using hne), ih hrest h]

theorem mem_of_get?_eq_some [LawfulBEq κ] {es : Entries α κ} {key : κ} {value : α}
    (h : get? es key = some value) : (key, value) ∈ es := by
  induction es with
  | nil => cases h
  | cons e es ih =>
    obtain ⟨k, v⟩ := e
    rw [get?] at h
    split at h
    next hkey =>
      obtain rfl := Option.some.inj h
      rw [beq_iff_eq.mp hkey]
      exact List.mem_cons_self
    next => exact List.mem_cons_of_mem _ (ih h)

theorem get?_eq_none [LawfulBEq κ] {es : Entries α κ} {key : κ} (h : key ∉ keys es) : get? es key = none := by
  have hnone : ¬ has es key = true := fun hhas => h ((has_iff_mem_keys es key).mp hhas)
  simpa [has] using hnone

/-- A key whose entries are all kept is found as before. -/
theorem get?_filter_of_kept [LawfulBEq κ] {p : κ × α → Bool} {key : κ} (hp : ∀ value, p (key, value) = true)
    (es : Entries α κ) : get? (es.filter p) key = get? es key := by
  induction es with
  | nil => rfl
  | cons e es ih =>
    obtain ⟨k, value⟩ := e
    by_cases hk : k = key
    · subst hk
      simp [get?, hp]
    · cases hkept : p (k, value) <;> simp [get?, hk, hkept, ih]

theorem get?_append (es more : Entries α κ) (key : κ) :
    get? (es ++ more) key = (get? es key).or (get? more key) := by
  induction es with
  | nil => rfl
  | cons e es ih => by_cases h : (e.1 == key) = true <;> simp [get?, h, ih]

/-- With distinct keys it only counts which entries there are. -/
theorem get?_congr [LawfulBEq κ] {es es' : Entries α κ} (h : (keys es).Nodup) (h' : (keys es').Nodup)
    (hmem : ∀ e, e ∈ es ↔ e ∈ es') (key : κ) : get? es key = get? es' key := by
  cases hfound : get? es key with
  | some value => rw [get?_of_mem h' ((hmem _).mp (mem_of_get?_eq_some hfound))]
  | none =>
    cases hfound' : get? es' key with
    | none => rfl
    | some value =>
      rw [get?_of_mem h ((hmem _).mpr (mem_of_get?_eq_some hfound'))] at hfound
      cases hfound

end ElementCompiler.Entries
