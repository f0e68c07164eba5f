import ElementCompiler.Proofs.Attempt
import ElementCompiler.Proofs.Distinct
import ElementCompiler.Proofs.Snippet.PropReads

set_option autoImplicit false

/-!
The props of a component: those that it declares, and then those that its code reads, each where it
comes first.
-/

namespace ElementCompiler

open Attempt Text

namespace Json

theorem same_str (s t : Text) : same (.str s) (.str t) = (s == t) := by
  rw [Bool.eq_iff_iff]
  simp [same, key?]

theorem any_same_str (s : Text) (ts : List Text) :
    (ts.map Json.str).any (same (.str s)) = ts.contains s := by
  rw [List.any_map, List.contains_eq_any_beq]
  exact congrArg (List.any ts) (funext fun t => same_str s t)

/-- Of texts, the distinct ones are those where they come first. -/
theorem distinct_strs (xs : List Text) : distinct (xs.map .str) = xs.eraseDups.map .str := by
  have hfold : ∀ seen : List Text, (xs.map Json.str).foldl
      (fun seen x => if seen.any (same x) then seen else seen ++ [x]) (seen.map .str) =
        (seen ++ (xs.removeAll seen).eraseDups).map .str := by
    induction xs with
    | nil => simp
    | cons x xs ih =>
      intro seen
      rw [List.map_cons, List.foldl_cons, any_same_str]
      by_cases hx : x ∈ seen
      · have hskip : (x :: xs).removeAll seen = xs.removeAll seen := by simp [List.removeAll, hx]
        rw [if_pos (by simpa using hx), hskip, ih]
      · have hnext : ((x :: xs).removeAll seen).eraseDups =
            x :: (xs.removeAll (seen ++ [x])).eraseDups := by
          rw [List.removeAll, List.removeAll, List.filter_cons_of_pos (by simpa using hx),
            List.eraseDups_cons, List.filter_filter]
          refine congrArg (fun rest => x :: rest.eraseDups) (List.filter_congr fun y _ => ?_)
          by_cases hy : y = x <;> simp [hy]
        have happend : seen.map Json.str ++ [.str x] = (seen ++ [x]).map .str := by simp
        rw [if_neg (by simpa using hx), happend, ih, hnext]
        simp
  have hall := hfold []
  rwa [List.nil_append, List.removeAll_nil] at hall

end Json

namespace Component

variable {c : Component} {declared codes : List Text}

theorem codeProps_texts (codes : List Text) :
    codeProps (codes.map fun s => some (.str s)) = .ok (codes.flatMap propReads) := by
  induction codes with
  | nil => rfl
  | cons s codes ih =>
    rw [List.map_cons, codeProps, Json.textOr_str, ok_bind, ih]
    rfl

/-- The names of the props, when the declared ones and all snippets are texts. -/
theorem propNames_texts (hprops : c.props = declared.map .str)
    (hcodes : c.snippets = codes.map fun s => some (.str s)) :
    c.propNames = .ok ((declared ++ codes.flatMap propReads).eraseDups.map .str) := by
  have hkeys : c.props.all Json.isKey = true := by
    rw [hprops, List.all_map, List.all_eq_true]
    exact fun _ _ => rfl
  rw [propNames, if_pos hkeys, hcodes, codeProps_texts, ok_bind, hprops, ← List.map_append,
    Json.distinct_strs]
  rfl

end Component
end ElementCompiler
