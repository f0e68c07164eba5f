import ElementCompiler.Proofs.Snippet.RefPasses

set_option autoImplicit false

/-!
The words of a snippet: the longest runs of characters that continue names, inside literals too.
Literals and the runs between them meet at characters that belong to no word, so the words of a
snippet are those of its segments, whatever is written for the plain ones.
-/

namespace ElementCompiler.Snippet

open Text

/-- The words that begin in a text; `inside` says that one is going on where the text begins. -/
def wordsFrom : (inside : Bool) → Text → List Text
  | _, [] => []
  | inside, c :: cs =>
    if continuesName c then
      if inside then wordsFrom true cs else (c :: cs.takeWhile continuesName) :: wordsFrom true cs
    else wordsFrom false cs

def words (s : Text) : List Text := wordsFrom false s

section Append

variable {s t : Text}

theorem wordsFrom_other (inside : Bool) {c : CodePoint} (hc : continuesName c = false) (s : Text) :
    wordsFrom inside (c :: s) = words s := by
  rw [wordsFrom, if_neg (by simp [hc]), words]

theorem wordsFrom_inside {c : CodePoint} (hc : continuesName c = true) (s : Text) :
    wordsFrom true (c :: s) = wordsFrom true s := by
  rw [wordsFrom, if_pos hc, if_pos rfl]

theorem words_cons {c : CodePoint} (hc : continuesName c = true) (s : Text) :
    words (c :: s) = (c :: s.takeWhile continuesName) :: wordsFrom true s := by
  rw [words, wordsFrom, if_pos hc, if_neg Bool.false_ne_true]

/-- Where no word goes on, it does not count whether one was going on. -/
theorem wordsFrom_of_headIs (inside : Bool) (hs : headIs continuesName s = false) :
    wordsFrom inside s = words s := by
  cases s with
  | nil => rfl
  | cons c cs => rw [wordsFrom_other inside hs, ← wordsFrom_other false hs, words]

theorem wordsFrom_append (inside : Bool) (s : Text) (ht : headIs continuesName t = false) :
    wordsFrom inside (s ++ t) = wordsFrom inside s ++ words t := by
  induction s generalizing inside with
  | nil => exact wordsFrom_of_headIs inside ht
  | cons c cs ih =>
    rw [List.cons_append]
    by_cases hc : continuesName c = true
    · cases inside with
      | true => rw [wordsFrom_inside hc, wordsFrom_inside hc, ih]
      | false =>
        have hfirst : wordsFrom false (c :: (cs ++ t)) = _ := words_cons hc (cs ++ t)
        have hcs : wordsFrom false (c :: cs) = _ := words_cons hc cs
        rw [hfirst, hcs, takeWhile_append_of_headIs cs ht, ih, List.cons_append]
    · have hc : continuesName c = false := by simpa using hc
      rw [wordsFrom_other inside hc, wordsFrom_other inside hc]
      exact ih false

/-- Two texts of which no name goes on into the other have their own words. -/
theorem words_append (h : Apart s.reverse t) : words (s ++ t) = words s ++ words t := by
  rcases h with h | h
  · rcases List.eq_nil_or_concat s with rfl | ⟨front, c, rfl⟩
    · rfl
    · have hc : continuesName c = false := by simpa [headIs] using h
      have hend : ∀ rest, words (front ++ c :: rest) = words front ++ words rest := by
        intro rest
        have hsplit : words (front ++ c :: rest) = words front ++ words (c :: rest) :=
          wordsFrom_append false front hc
        rw [hsplit]
        exact congrArg (words front ++ ·) (wordsFrom_other false hc rest)
      rw [List.concat_eq_append, List.append_assoc, List.singleton_append, hend, hend]
      simp [words, wordsFrom]
  · exact wordsFrom_append false s h

theorem wordsFrom_name {run : Text} (hrun : ∀ c ∈ run, continuesName c = true) (s : Text) :
    wordsFrom true (run ++ s) = wordsFrom true s := by
  induction run with
  | nil => rfl
  | cons c cs ih =>
    rw [List.forall_mem_cons] at hrun
    rw [List.cons_append, wordsFrom_inside hrun.1, ih hrun.2]

/-- A name at the start is the beginning of the first word. -/
theorem words_name_append {name : Text} (hname : IsName name) (s : Text) :
    words (name ++ s) = (name ++ s.takeWhile continuesName) :: wordsFrom true s := by
  obtain ⟨c, cs, rfl⟩ := List.exists_cons_of_ne_nil hname.1
  have hcs : ∀ d ∈ cs, continuesName d = true := fun d hd => hname.2 d (List.mem_cons_of_mem c hd)
  rw [List.cons_append, words_cons (hname.2 c List.mem_cons_self), wordsFrom_name hcs,
    List.takeWhile_append_of_pos hcs, List.cons_append]

theorem words_name {name : Text} (hname : IsName name) : words name = [name] := by
  have h := words_name_append hname []
  rwa [List.append_nil, List.takeWhile_nil, List.append_nil] at h

theorem mem_wordsFrom_tail (inside : Bool) {word : Text} {c : CodePoint}
    (h : word ∈ wordsFrom (continuesName c) s) : word ∈ wordsFrom inside (c :: s) := by
  cases hc : continuesName c with
  | false =>
    rw [hc] at h
    rwa [wordsFrom_other inside hc]
  | true =>
    rw [hc] at h
    cases inside with
    | true => rwa [wordsFrom_inside hc]
    | false =>
      change word ∈ words (c :: s)
      rw [words_cons hc]
      exact List.mem_cons_of_mem _ h

/-- Behind one character that both texts begin with, the words of one are words of the other. -/
theorem mem_wordsFrom_cons {inside : Bool} {word : Text} {c : CodePoint}
    (hrun : continuesName c = true → t.takeWhile continuesName = s.takeWhile continuesName)
    (hrest : word ∈ wordsFrom (continuesName c) t → word ∈ wordsFrom (continuesName c) s)
    (h : word ∈ wordsFrom inside (c :: t)) : word ∈ wordsFrom inside (c :: s) := by
  cases hc : continuesName c with
  | false =>
    rw [hc] at hrest
    rw [wordsFrom_other inside hc] at h ⊢
    exact hrest h
  | true =>
    rw [hc] at hrest
    cases inside with
    | true =>
      rw [wordsFrom_inside hc] at h ⊢
      exact hrest h
    | false =>
      change word ∈ words (c :: t) at h
      change word ∈ words (c :: s)
      rw [words_cons hc, hrun hc] at h
      rw [words_cons hc]
      exact List.mem_cons.mpr ((List.mem_cons.mp h).imp_right hrest)

theorem mem_words_of_inside {word : Text} (h : word ∈ wordsFrom true s) : word ∈ words s := by
  cases s with
  | nil => exact h
  | cons c cs =>
    refine mem_wordsFrom_tail false ?_
    cases hc : continuesName c with
    | true => rwa [wordsFrom_inside hc] at h
    | false => rwa [wordsFrom_other true hc] at h

/-- A name is a word of a text exactly when it stands in it as a whole. -/
theorem mem_words {name : Text} (hname : IsName name) : name ∈ words s ↔
    ∃ near rest, s = near ++ (name ++ rest) ∧ headIs continuesName near.reverse = false ∧
      headIs continuesName rest = false := by
  constructor
  · intro h
    induction s using nameInduction with
    | nil => exact absurd h List.not_mem_nil
    | other c cs hc ih =>
      rw [words, wordsFrom_other false hc] at h
      obtain ⟨near, rest, rfl, hnear, hrest⟩ := ih h
      refine ⟨c :: near, rest, rfl, ?_, hrest⟩
      rcases List.eq_nil_or_concat near with rfl | ⟨front, d, rfl⟩
      · exact hc
      · simpa [headIs] using hnear
    | name first rest hfirst hrest ih =>
      rw [words_append (.inr hrest), words_name hfirst] at h
      rcases List.mem_cons.mp h with rfl | h
      · exact ⟨[], rest, rfl, rfl, hrest⟩
      · obtain ⟨near, rest', rfl, hnear, hrest'⟩ := ih h
        refine ⟨first ++ near, rest', (List.append_assoc _ _ _).symm, ?_, hrest'⟩
        rcases List.eq_nil_or_concat near with rfl | ⟨front, d, rfl⟩
        · obtain ⟨c, cs, rfl⟩ := List.exists_cons_of_ne_nil hname.1
          exact absurd (hname.2 c List.mem_cons_self) (by simpa [headIs] using hrest)
        · simpa [headIs] using hnear
  · rintro ⟨near, rest, rfl, hnear, hrest⟩
    rw [words_append (.inl hnear), words_append (.inr hrest), words_name hname]
    exact List.mem_append_right _ (List.mem_append_left _ (List.mem_singleton_self name))

end Append

section Segments

theorem words_mapPlain (f : Text → Text) (code : Text) :
    words (mapPlain f code) = (segments code).flatMap fun part => words (part.map f) := by
  fun_induction segments code with
  | case1 => rw [mapPlain_nil, List.flatMap_nil]; rfl
  | case2 c cs hq ih =>
    rw [mapPlain_literal f hq, List.flatMap_cons, ← ih]
    have hborder : (literalRest c cs).2 = [] ∨ Apart (c :: (literalRest c cs).1).reverse
        (mapPlain f (literalRest c cs).2) := by
      refine (literalRest_end hq cs).imp_right ?_
      rintro ⟨front, d, hfront, hd⟩
      rw [hfront, ← List.cons_append, List.reverse_append]
      exact .inl (Bool.or_eq_false_iff.mp hd).1
    rcases hborder with hnone | hborder
    · rw [hnone, mapPlain_nil, List.append_nil]
      exact (List.append_nil _).symm
    · exact words_append hborder
  | case3 c cs hq ih =>
    have hc : isQuote c = false := by simpa using hq
    rw [mapPlain_run f hc, List.flatMap_cons, ← ih]
    refine words_append (.inr ?_)
    cases hrest : cs.dropWhile isNotQuote with
    | nil => rw [mapPlain_nil]; rfl
    | cons d ds =>
      have hd := isQuote_of_dropWhile hrest
      rw [mapPlain_literal f hd]
      exact continuesName_eq_false_of_isQuote hd

theorem words_segments (code : Text) :
    words code = (segments code).flatMap fun part => words part.text := by
  have hid := words_mapPlain id code
  rw [mapPlain_id] at hid
  refine hid.trans (List.flatMap_congr fun part _ => ?_)
  cases part <;> rfl

theorem words_of_mem_segments {code run : Text} (h : .plain run ∈ segments code) :
    ∀ word ∈ words run, word ∈ words code := by
  intro word hword
  rw [words_segments]
  exact List.mem_flatMap.mpr ⟨_, h, hword⟩

end Segments

end ElementCompiler.Snippet
