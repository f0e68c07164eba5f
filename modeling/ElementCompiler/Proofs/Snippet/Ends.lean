import ElementCompiler.Markup.Tag
import ElementCompiler.Proofs.Component.Refs
import ElementCompiler.Proofs.Snippet.RefPasses
import ElementCompiler.Proofs.Snippet.Strip

set_option autoImplicit false

/-!
The end of a snippet. A pass rewrites whole names, so a character at the end that no name goes on with
stays there.
-/

namespace ElementCompiler.Snippet

open Text

/-- A snippet that is empty or ends in a character that no name goes on with. -/
def EndsOff (s : Text) : Prop := ∀ c, s.getLast? = some c → continuesName c = false

/-- A rewriting that leaves such an end as it is, and the empty text empty. -/
structure KeepsEnd (f : Text → Text) : Prop where
  nil : f [] = []
  last : ∀ {s : Text} {c : CodePoint}, continuesName c = false → s.getLast? = some c →
    (f s).getLast? = some c

namespace KeepsEnd

variable {f g : Text → Text}

theorem comp (hg : KeepsEnd g) (hf : KeepsEnd f) : KeepsEnd fun s => g (f s) where
  nil := by rw [hf.nil, hg.nil]
  last hc hs := hg.last hc (hf.last hc hs)

theorem id : KeepsEnd fun s => s := ⟨rfl, fun _ h => h⟩

end KeepsEnd

section Ends

variable {f : Text → Text} {s t name : Text} {c : CodePoint}

theorem getLast?_append (h : t.getLast? = some c) : (s ++ t).getLast? = some c := by
  rw [List.getLast?_append, h]
  rfl

theorem getLast?_of_append (hne : t ≠ []) (h : (s ++ t).getLast? = some c) : t.getLast? = some c := by
  obtain ⟨init, d, rfl⟩ := (List.eq_nil_or_concat t).resolve_left hne
  rw [List.concat_eq_append] at h ⊢
  rw [← List.append_assoc, List.getLast?_concat] at h
  rw [List.getLast?_concat, h]

/-- A pass over the plain runs keeps the end when it keeps that of each run. -/
theorem KeepsEnd.mapPlain (hf : ∀ {run : Text} {c : CodePoint}, continuesName c = false →
    run.getLast? = some c → (f run).getLast? = some c) : KeepsEnd (mapPlain f) where
  nil := mapPlain_nil f
  last {s c} hc h := by
    fun_induction segments s with
    | case1 => cases h
    | case2 q cs hq ih =>
      have hsplit : q :: cs = q :: (literalRest q cs).1 ++ (literalRest q cs).2 := by
        rw [List.cons_append, literalRest_append]
      rw [mapPlain_literal f hq]
      by_cases hrest : (literalRest q cs).2 = []
      · rw [hrest, mapPlain_nil]
        rwa [hsplit, hrest] at h
      · rw [hsplit] at h
        exact getLast?_append (ih (getLast?_of_append hrest h))
    | case3 q cs hq ih =>
      have hsplit : q :: cs = q :: cs.takeWhile isNotQuote ++ cs.dropWhile isNotQuote := by
        rw [List.cons_append, List.takeWhile_append_dropWhile]
      rw [mapPlain_run f (by simpa using hq)]
      by_cases hrest : cs.dropWhile isNotQuote = []
      · rw [hrest, mapPlain_nil, List.append_nil]
        rw [hsplit, hrest, List.append_nil] at h
        exact hf hc h
      · rw [hsplit] at h
        exact getLast?_append (ih (getLast?_of_append hrest h))

end Ends

end ElementCompiler.Snippet
