import Mathlib.Data.List.Nodup
import Mathlib.Data.List.Pairwise

set_option autoImplicit false

/-!
Lists cut down to the first occurrences of their elements, and lists of what elements give.
-/

namespace ElementCompiler

/-- What the elements of a list give is distinct exactly when no two of them give the same. -/
theorem nodup_filterMap_iff {α β : Type} {f : α → Option β} {l : List α} (h : l.Nodup) :
    (l.filterMap f).Nodup ↔ ∀ a ∈ l, ∀ b ∈ l, ∀ c, f a = some c → f b = some c → a = b := by
  let Apart (a b : α) : Prop := ∀ c, f a = some c → ∀ d, f b = some d → c ≠ d
  have hsymm : Std.Symm Apart := ⟨fun a b hab c hc d hd => (hab d hd c hc).symm⟩
  rw [List.Nodup, List.pairwise_filterMap]
  constructor
  · intro hpairs a ha b hb c hac hbc
    by_contra hne
    exact List.Pairwise.forall (R := Apart) hpairs ha hb hne c hac c hbc rfl
  · intro hsame
    refine h.pairwise_of_forall_ne fun a ha b hb hne c hac d hbd hcd => ?_
    exact hne (hsame a ha b hb c hac (hcd ▸ hbd))

theorem nodup_eraseDups {α : Type} [BEq α] [LawfulBEq α] (l : List α) : l.eraseDups.Nodup := by
  match l with
  | [] => exact List.nodup_nil
  | a :: as =>
    rw [List.eraseDups_cons, List.nodup_cons, List.mem_eraseDups]
    exact ⟨by simp, nodup_eraseDups _⟩
termination_by l.length
decreasing_by exact Nat.lt_succ_of_le (List.length_filter_le _ _)

theorem filter_eraseDups {α : Type} [BEq α] [LawfulBEq α] (p : α → Bool) (l : List α) :
    (l.filter p).eraseDups = l.eraseDups.filter p := by
  match l with
  | [] => rfl
  | a :: as =>
    have hrest := filter_eraseDups p (as.filter fun b => !b == a)
    rw [List.eraseDups_cons]
    cases ha : p a with
    | true =>
      rw [List.filter_cons_of_pos ha, List.filter_cons_of_pos ha, List.eraseDups_cons, ← hrest,
        List.filter_filter, List.filter_filter]
      simp only [Bool.and_comm]
    | false =>
      have hsame : (as.filter fun b => !b == a).filter p = as.filter p := by
        rw [List.filter_filter]
        refine List.filter_congr fun b _ => ?_
        by_cases hb : b = a
        · rw [hb, ha, Bool.false_and]
        · simp [hb]
      rw [List.filter_cons_of_neg (by simp [ha]), List.filter_cons_of_neg (by simp [ha]), ← hrest, hsame]
termination_by l.length
decreasing_by exact Nat.lt_succ_of_le (List.length_filter_le _ _)

/-- Cutting down parts first changes nothing when the whole is cut down. -/
theorem eraseDups_append_congr {α : Type} [BEq α] [LawfulBEq α] {l l' r r' : List α}
    (hl : l.eraseDups = l'.eraseDups) (hr : r.eraseDups = r'.eraseDups) :
    (l ++ r).eraseDups = (l' ++ r').eraseDups := by
  have hmem : ∀ x, l.contains x = l'.contains x := fun x => by
    rw [Bool.eq_iff_iff, List.contains_iff_mem, List.contains_iff_mem, ← List.mem_eraseDups, hl, List.mem_eraseDups]
  have hremoved : ∀ s : List α, s.removeAll l = s.removeAll l' := fun s =>
    List.filter_congr fun x _ => by rw [List.elem_eq_contains, List.elem_eq_contains, hmem]
  rw [List.eraseDups_append, List.eraseDups_append, hl, hremoved]
  unfold List.removeAll
  rw [filter_eraseDups, filter_eraseDups, hr]

theorem eraseDups_of_nodup {α : Type} [BEq α] [LawfulBEq α] {l : List α} (h : l.Nodup) : l.eraseDups = l := by
  induction l with
  | nil => rfl
  | cons a as ih =>
    obtain ⟨ha, has⟩ := List.nodup_cons.mp h
    have hother : as.filter (fun b => !b == a) = as := by
      refine List.filter_eq_self.mpr fun b hb => ?_
      simpa using fun heq : b = a => ha (heq ▸ hb)
    rw [List.eraseDups_cons, hother, ih has]

/-- A map that tells apart what is distinct keeps the first occurrences. -/
theorem eraseDups_map {α β : Type} [BEq α] [BEq β] {f : α → β} (hf : ∀ a b, (f a == f b) = (a == b))
    (l : List α) : (l.map f).eraseDups = l.eraseDups.map f := by
  match l with
  | [] => rfl
  | a :: as =>
    have hfilter : (as.map f).filter (fun b => !b == f a) = (as.filter fun b => !b == a).map f := by
      rw [List.filter_map]
      refine congrArg (List.map f) (List.filter_congr fun b _ => ?_)
      rw [Function.comp_apply, hf]
    rw [List.map_cons, List.eraseDups_cons, List.eraseDups_cons, List.map_cons, hfilter,
      eraseDups_map hf]
termination_by l.length
decreasing_by exact Nat.lt_succ_of_le (List.length_filter_le _ _)

section Order

variable {α : Type} [BEq α] [LawfulBEq α] {l : List α} {a b : α}

/-- Taking elements away does not turn the order of two that stay. -/
theorem idxOf_filter_lt {p : α → Bool} (hb : p b = true)
    (h : (l.filter p).idxOf a < (l.filter p).idxOf b) : l.idxOf a < l.idxOf b := by
  induction l with
  | nil => exact h
  | cons x l ih =>
    by_cases hxb : x = b
    · simp [hxb, hb] at h
    by_cases hxa : x = a
    · simp [hxa, List.idxOf_cons, show (a == b) = false by simpa [hxa] using hxb]
    have hrest : (l.filter p).idxOf a < (l.filter p).idxOf b := by
      cases hx : p x <;> simpa [hx, List.idxOf_cons, hxa, hxb] using h
    simpa [List.idxOf_cons, hxa, hxb] using ih hrest

/-- What is left stands in the order in which it first occurs. -/
theorem eraseDups_ordered (l : List α) :
    l.eraseDups.Pairwise fun a b => l.idxOf a < l.idxOf b := by
  match l with
  | [] => exact .nil
  | x :: l =>
    have hother : ∀ b ∈ (l.filter fun b => !b == x).eraseDups, x ≠ b := by
      rintro b hb rfl
      simp at hb
    rw [List.eraseDups_cons, List.pairwise_cons]
    refine ⟨fun b hb => ?_, ?_⟩
    · simp [hother b hb]
    · refine (eraseDups_ordered _).imp_of_mem fun {a b} ha hb hlt => ?_
      have hstep := idxOf_filter_lt (by simp [(hother b hb).symm]) hlt
      simpa [List.idxOf_cons, hother a ha, hother b hb] using hstep
termination_by l.length
decreasing_by exact Nat.lt_succ_of_le (List.length_filter_le _ _)

end Order

end ElementCompiler
