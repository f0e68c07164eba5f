import ElementCompiler.Markup.Tag
import ElementCompiler.Proofs.Attempt
import ElementCompiler.Proofs.Snippet.Strip
import ElementCompiler.Snippet.Relocate

set_option autoImplicit false

/-!
Snippets that are not blank stay so when references in them are written in another way: what is
written for a reference is not blank, and everything else stays.
-/

namespace ElementCompiler

open Text

namespace Text

theorem isBlankText_append (s t : Text) :
    isBlankText (s ++ t) = (isBlankText s && isBlankText t) := List.all_append

theorem isBlankText_cons (c : CodePoint) (s : Text) :
    isBlankText (c :: s) = (c.is isBlank && isBlankText s) := rfl

/-- Whatever is written for a text, no occurrence leaves a text that is not blank without ink. -/
theorem replaceFrom_notBlank {pat new : Text} (hnew : isBlankText new = false) {s : Text}
    (h : isBlankText s = false) : isBlankText (replaceFrom pat new 0 s) = false := by
  induction s with
  | nil => exact absurd h (by decide)
  | cons c cs ih =>
    rw [replaceFrom]
    split
    next => rw [isBlankText_append, hnew, Bool.false_and]
    next =>
      rw [isBlankText_cons, Bool.and_eq_false_iff] at h ⊢
      exact h.imp_right ih

theorem replaceFrom_eq_self {p : CodePoint} {new s : Text} (h : p ∉ s) :
    replaceFrom [p] new 0 s = s := by
  induction s with
  | nil => rfl
  | cons c cs ih =>
    rw [List.mem_cons, not_or] at h
    have hstart : startsWith [p] (c :: cs) = false := by simp [startsWith, after?, h.1]
    rw [replaceFrom, if_neg (by simp [hstart]), ih h.2]

theorem isBlankText_encodeQuotes (s : Text) :
    isBlankText (Markup.encodeQuotes s) = isBlankText s := by
  have hencode : Markup.encodeQuotes s = replaceFrom [.char '"'] "&quot;" 0 s := rfl
  rw [hencode]
  cases hs : isBlankText s with
  | false => exact replaceFrom_notBlank (by decide) hs
  | true =>
    have hquote : CodePoint.char '"' ∉ s := fun hmem =>
      absurd (List.all_eq_true.mp hs _ hmem) (by decide)
    rw [replaceFrom_eq_self hquote, hs]

end Text

namespace Snippet

/-- The rewriting leaves no snippet blank that was not. -/
def KeepsInk (f : Text → Text) : Prop := ∀ s, isBlankText s = false → isBlankText (f s) = false

theorem keepsInk_mapPlain {f : Text → Text} (hf : KeepsInk f) : KeepsInk (mapPlain f) := by
  intro s hs
  have hflat : ∀ (g : Segment → Text) (parts : List Segment),
      isBlankText (parts.flatMap g) = parts.all fun part => isBlankText (g part) := by
    intro g parts
    induction parts with
    | nil => rfl
    | cons part parts ih => rw [List.flatMap_cons, isBlankText_append, ih, List.all_cons]
  rw [← flatMap_text_segments s, hflat, List.all_eq_false] at hs
  obtain ⟨part, hpart, hink⟩ := hs
  rw [mapPlain, hflat, List.all_eq_false]
  refine ⟨part, hpart, ?_⟩
  cases part with
  | literal text => exact hink
  | plain text => simpa [Segment.map] using hf text (by simpa [Segment.text] using hink)

theorem keepsInk_substitute (name : Text) {written : Text → Text → Text}
    (hwritten : ∀ before after, isBlankText (written before after) = false) :
    KeepsInk (substitute name written) := by
  intro s
  rw [substitute]
  generalize ([] : Text) = before
  intro hs
  induction s generalizing before with
  | nil => exact absurd hs (by decide)
  | cons c cs ih =>
    rw [substituteFrom]
    split
    next =>
      rw [isBlankText_cons, Bool.and_eq_false_iff] at hs ⊢
      exact hs.imp_right (ih (c :: before))
    next => rw [isBlankText_append, hwritten, Bool.false_and]

theorem isBlankText_of_memberAt? {before rest name : Text} (h : memberAt? before rest = some name) :
    isBlankText name = false := by
  obtain ⟨hne, hname⟩ := isName_of_memberAt? h
  obtain ⟨c, cs, rfl⟩ := List.exists_cons_of_ne_nil hne
  rw [isBlankText_cons, is_isBlank_of_isMember (hname c List.mem_cons_self), Bool.false_and]

theorem continuesName_of_isBlank {c : CodePoint} (h : c.is isBlank = true) :
    continuesName c = false := by
  by_contra hc
  have hmember := is_isBlank_of_isMember (c := c) (by simpa [continuesName] using hc)
  rw [h] at hmember
  cases hmember

/-- Taking the lead off members leaves a snippet blank exactly when it was. -/
theorem isBlankText_strip (s : Text) : isBlankText (strip (.before "") s) = isBlankText s := by
  have hmember : ∀ name, isBlankText (Receptor.before "" name) = isBlankText name := fun _ => rfl
  cases hs : isBlankText s with
  | false =>
    refine keepsInk_mapPlain (fun run hrun => ?_) s hs
    generalize ([] : Text) = before
    induction run generalizing before with
    | nil => exact absurd hrun (by decide)
    | cons c cs ih =>
      rw [stripFrom]
      split
      next =>
        rw [isBlankText_cons, Bool.and_eq_false_iff] at hrun ⊢
        exact hrun.imp_right (ih · (c :: before))
      next name hname =>
        rw [isBlankText_append, hmember, isBlankText_of_memberAt? hname, Bool.false_and]
  | true =>
    have hstrip : ∀ before run, isBlankText run = true →
        stripFrom (.before "") 0 before run = run := by
      intro before run hrun
      induction run generalizing before with
      | nil => rw [stripFrom]
      | cons c cs ih =>
        rw [isBlankText_cons, Bool.and_eq_true] at hrun
        rw [stripFrom_other _ before (continuesName_of_isBlank hrun.1), ih (c :: before) hrun.2]
    have hquote : ∀ c ∈ s, isNotQuote c = true := by
      intro c hc
      have hblank := List.all_eq_true.mp hs c hc
      cases c with
      | half n => cases hblank
      | char c =>
        by_contra hn
        have hc : isQuote (.char c) = true := by simpa [isNotQuote] using hn
        rw [isQuote, Bool.or_eq_true, decide_eq_true_eq, decide_eq_true_eq] at hc
        rcases hc with ⟨⟨⟩⟩ | ⟨⟨⟩⟩
        · exact absurd hblank (by decide)
        · exact absurd hblank (by decide)
    cases s with
    | nil => rw [strip, mapPlain_nil]; rfl
    | cons c cs =>
      have hc := isQuote_eq_false (hquote c List.mem_cons_self)
      have hcs : ∀ d ∈ cs, isNotQuote d = true := fun d hd => hquote d (List.mem_cons_of_mem c hd)
      rw [strip, mapPlain_run _ hc, List.takeWhile_eq_self_iff.mpr hcs,
        List.dropWhile_eq_nil_iff.mpr hcs, mapPlain_nil, List.append_nil, hstrip [] _ hs, hs]

end Snippet
end ElementCompiler
