import ElementCompiler.Snippet.Segment
import Mathlib.Data.List.Basic
import Mathlib.Data.List.TakeWhile

set_option autoImplicit false

/-!
What cutting a snippet into segments makes of a snippet whose plain runs were rewritten. A rewriting
that puts no quote into a run and leaves no run empty moves no border: the literals are cut where
they were, and every run is cut as a whole. So two such rewritings in a row are one.
-/

namespace ElementCompiler.Snippet

/-- A rewriting of plain runs that leaves the borders of segments where they are. -/
structure KeepsRuns (f : Text → Text) : Prop where
  noQuote : ∀ run, (∀ c ∈ run, isNotQuote c = true) → ∀ c ∈ f run, isNotQuote c = true
  notEmpty : ∀ run, run ≠ [] → f run ≠ []

theorem KeepsRuns.comp {f g : Text → Text} (hg : KeepsRuns g) (hf : KeepsRuns f) :
    KeepsRuns (g ∘ f) where
  noQuote := fun run h => hg.noQuote (f run) (hf.noQuote run h)
  notEmpty := fun run h => hg.notEmpty (f run) (hf.notEmpty run h)

def Segment.onPlain (f : Text → Text) : Segment → Segment
  | .literal text => .literal text
  | .plain text => .plain (f text)

/-- A literal ends where it ended whatever comes after it, unless it ended with the snippet. -/
theorem literalRest_of_ended (quote : CodePoint) (cs rest : Text)
    (h : (literalRest quote cs).2 = [] → rest = []) :
    literalRest quote ((literalRest quote cs).1 ++ rest) = ((literalRest quote cs).1, rest) := by
  fun_induction literalRest quote cs with
  | case1 => simp [h rfl, literalRest]
  | case2 cs => rw [List.singleton_append, literalRest.eq_def]; simp
  | case3 hq => rw [h rfl, List.append_nil, literalRest.eq_def]; simp [hq]
  | case4 d ds hq ih =>
    have hrest := ih h
    rw [List.cons_append, List.cons_append, literalRest.eq_def]
    simp [hq, hrest]
  | case5 cs hq hb => rw [List.singleton_append, literalRest.eq_def]; simp [hq]
  | case6 c cs hq hb hn ih =>
    have hrest := ih h
    rw [List.cons_append, literalRest.eq_def]
    simp [hq, hb, hn, hrest]

theorem isQuote_of_dropWhile {cs : Text} {c : CodePoint} {rest : Text}
    (h : cs.dropWhile isNotQuote = c :: rest) : isQuote c = true := by
  have hhead := List.head?_dropWhile_not isNotQuote cs
  rw [h] at hhead
  simpa [isNotQuote] using hhead

theorem isQuote_eq_false {c : CodePoint} (h : isNotQuote c = true) : isQuote c = false := by
  simpa [isNotQuote] using h

/-- A run before a quote, or before the end, is cut off as one segment. -/
theorem segments_run_append {run rest : Text} (hne : run ≠ [])
    (hrun : ∀ c ∈ run, isNotQuote c = true)
    (hrest : ∀ c cs, rest = c :: cs → isQuote c = true) :
    segments (run ++ rest) = .plain run :: segments rest := by
  obtain ⟨c, cs, rfl⟩ := List.exists_cons_of_ne_nil hne
  have hc := isQuote_eq_false (hrun c List.mem_cons_self)
  have hcs : ∀ d ∈ cs, isNotQuote d = true := fun d hd => hrun d (List.mem_cons_of_mem c hd)
  have htake : (cs ++ rest).takeWhile isNotQuote = cs := by
    rw [List.takeWhile_append_of_pos hcs]
    cases rest with
    | nil => simp
    | cons d ds => simp [isNotQuote, hrest d ds rfl]
  have hdrop : (cs ++ rest).dropWhile isNotQuote = rest := by
    rw [List.dropWhile_append_of_pos hcs]
    cases rest with
    | nil => rfl
    | cons d ds => simp [isNotQuote, hrest d ds rfl]
  rw [List.cons_append, segments, if_neg (by simp [hc]), htake, hdrop]

theorem mapPlain_nil (f : Text → Text) : mapPlain f [] = [] := by
  rw [mapPlain, segments, List.flatMap_nil]

theorem mapPlain_literal (f : Text → Text) {c : CodePoint} (hc : isQuote c = true) (cs : Text) :
    mapPlain f (c :: cs) = c :: (literalRest c cs).1 ++ mapPlain f (literalRest c cs).2 := by
  rw [mapPlain, segments, if_pos hc, List.flatMap_cons]
  rfl

theorem mapPlain_run (f : Text → Text) {c : CodePoint} (hc : isQuote c = false) (cs : Text) :
    mapPlain f (c :: cs) =
      f (c :: cs.takeWhile isNotQuote) ++ mapPlain f (cs.dropWhile isNotQuote) := by
  rw [mapPlain, segments, if_neg (by simp [hc]), List.flatMap_cons]
  rfl

/-- A pass over a snippet that begins without a quote is a pass over its first run, and one over
    what comes after. -/
theorem mapPlain_append {first : Text} (hne : first ≠ [])
    (hfirst : ∀ c ∈ first, isNotQuote c = true) (f : Text → Text) (rest : Text) :
    mapPlain f (first ++ rest) =
      f (first ++ rest.takeWhile isNotQuote) ++ mapPlain f (rest.dropWhile isNotQuote) := by
  obtain ⟨c, cs, rfl⟩ := List.exists_cons_of_ne_nil hne
  have hc := isQuote_eq_false (hfirst c List.mem_cons_self)
  have hcs : ∀ d ∈ cs, isNotQuote d = true := fun d hd => hfirst d (List.mem_cons_of_mem c hd)
  rw [List.cons_append, mapPlain_run f hc, List.takeWhile_append_of_pos hcs,
    List.dropWhile_append_of_pos hcs, List.cons_append]

theorem mapPlain_of_noQuote {s : Text} (hne : s ≠ []) (hs : ∀ c ∈ s, isNotQuote c = true)
    (f : Text → Text) : mapPlain f s = f s := by
  simpa [mapPlain_nil] using mapPlain_append hne hs f []

theorem segments_mapPlain {f : Text → Text} (hf : KeepsRuns f) (code : Text) :
    segments (mapPlain f code) = (segments code).map (Segment.onPlain f) := by
  fun_induction segments code with
  | case1 => rw [mapPlain_nil, segments, List.map_nil]
  | case2 c cs hq ih =>
    have hend : (literalRest c cs).2 = [] → mapPlain f (literalRest c cs).2 = [] := by
      intro h
      rw [h, mapPlain_nil]
    rw [mapPlain_literal f hq, List.cons_append, segments, if_pos hq,
      literalRest_of_ended c cs _ hend, ih]
    rfl
  | case3 c cs hq ih =>
    have hc : isQuote c = false := by simpa using hq
    have hrun : ∀ d ∈ c :: cs.takeWhile isNotQuote, isNotQuote d = true := by
      intro d hd
      rcases List.mem_cons.mp hd with rfl | hd
      · simp [isNotQuote, hc]
      · exact List.mem_takeWhile_imp hd
    have hrest : ∀ d ds, mapPlain f (cs.dropWhile isNotQuote) = d :: ds → isQuote d = true := by
      intro d ds h
      cases hcs : cs.dropWhile isNotQuote with
      | nil => simp [hcs, mapPlain_nil] at h
      | cons e es =>
        have he := isQuote_of_dropWhile hcs
        rw [hcs, mapPlain_literal f he, List.cons_append, List.cons.injEq] at h
        exact h.1 ▸ he
    rw [mapPlain_run f hc, segments_run_append (hf.notEmpty _ (by simp)) (hf.noQuote _ hrun) hrest,
      ih]
    rfl

/-- Two rewritings of the plain runs are one. -/
theorem mapPlain_mapPlain {f : Text → Text} (hf : KeepsRuns f) (g : Text → Text) (code : Text) :
    mapPlain g (mapPlain f code) = mapPlain (g ∘ f) code := by
  have hmap : ∀ s : Segment, (s.onPlain f).map g = s.map (g ∘ f) := by
    intro s
    cases s <;> rfl
  rw [mapPlain, segments_mapPlain hf, List.flatMap_map, mapPlain]
  exact List.flatMap_congr fun s _ => hmap s

theorem mem_segments_mapPlain {f : Text → Text} (hf : KeepsRuns f) {code run : Text}
    (h : .plain run ∈ segments (mapPlain f code)) :
    ∃ before, .plain before ∈ segments code ∧ run = f before := by
  rw [segments_mapPlain hf, List.mem_map] at h
  obtain ⟨s, hs, he⟩ := h
  cases s with
  | literal text => simp [Segment.onPlain] at he
  | plain text =>
    refine ⟨text, hs, ?_⟩
    simpa [Segment.onPlain] using he.symm

theorem mapPlain_congr {f g : Text → Text} {code : Text}
    (h : ∀ run, .plain run ∈ segments code → f run = g run) : mapPlain f code = mapPlain g code := by
  rw [mapPlain, mapPlain]
  refine List.flatMap_congr fun s hs => ?_
  cases s with
  | literal text => rfl
  | plain text => exact h text hs

theorem mapPlain_id (code : Text) : mapPlain id code = code := by
  have hid : ∀ part : Segment, part.map id = part.text := by
    intro part
    cases part <;> rfl
  rw [mapPlain, List.flatMap_congr fun part _ => hid part, flatMap_text_segments]

theorem mem_of_mem_segments {code run : Text} (h : .plain run ∈ segments code) : ∀ c ∈ run, c ∈ code := by
  intro c hc
  rw [← flatMap_text_segments code]
  exact List.mem_flatMap.mpr ⟨_, h, hc⟩

end ElementCompiler.Snippet
