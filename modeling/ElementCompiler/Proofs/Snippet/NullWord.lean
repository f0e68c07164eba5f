import ElementCompiler.Proofs.Component.Refs
import ElementCompiler.Proofs.Snippet.RefPasses
import ElementCompiler.Proofs.Snippet.Strip
import ElementCompiler.Proofs.Text.NullWord
import ElementCompiler.Proofs.Text.Trim
import ElementCompiler.Snippet.Block

set_option autoImplicit false

/-!
The passes over snippets as edits. A name is replaced only where no other name is joined to it, and what
is written for it is the name, perhaps behind a receptor, or a token of its own; so no pass brings the
word of a missing value into a snippet.
-/

namespace ElementCompiler.Snippet

open Text

section Letters

theorem continuesName_of_isNullLetter {c : CodePoint} (h : isNullLetter c = true) :
    continuesName c = true := by
  have hletters : ∀ c ∈ nullWord, continuesName c = true := by decide
  exact hletters c (by simpa [isNullLetter] using h)

theorem isNullLetter_of_not_continuesName {c : CodePoint} (h : continuesName c = false) :
    isNullLetter c = false :=
  Bool.eq_false_iff.mpr fun hc => by rw [continuesName_of_isNullLetter hc] at h; cases h

theorem headIs_isNullLetter {s : Text} (h : headIs continuesName s = false) :
    headIs isNullLetter s = false := by
  cases s with
  | nil => rfl
  | cons c cs => exact isNullLetter_of_not_continuesName h

theorem isNullLetter_of_isQuote {c : CodePoint} (h : isQuote c = true) : isNullLetter c = false := by
  rw [isQuote, Bool.or_eq_true, decide_eq_true_eq, decide_eq_true_eq] at h
  rcases h with rfl | rfl <;> decide

end Letters

section Segments

variable {f : Text → Text}

/-- A literal is kept, and unless it is the last segment it ends in no letter of the word. -/
theorem edits_literalRest {quote : CodePoint} (hquote : isQuote quote = true) {joined : Bool} {t : Text}
    (cs : Text) (hnil : (literalRest quote cs).2 = [] → t = []) (h : Edits false (literalRest quote cs).2 t) :
    Edits joined cs ((literalRest quote cs).1 ++ t) := by
  fun_induction literalRest quote cs generalizing joined with
  | case1 =>
    obtain rfl := hnil rfl
    exact .nil
  | case2 cs => exact .keep quote (isNullLetter_of_isQuote hquote ▸ h)
  | case3 hq =>
    obtain rfl := hnil rfl
    exact .keep _ .nil
  | case4 d ds hq ih => exact .keep _ (.keep d (ih hnil h))
  | case5 cs hq hb => exact .keep _ h
  | case6 c cs hq hb hn ih => exact .keep c (ih hnil h)

theorem headIs_mapPlain_dropWhile (cs : Text) :
    headIs isNullLetter (mapPlain f (cs.dropWhile isNotQuote)) = false := by
  cases hcs : cs.dropWhile isNotQuote with
  | nil => rw [mapPlain_nil]; rfl
  | cons d ds =>
    have hd := isQuote_of_dropWhile hcs
    rw [mapPlain_literal f hd]
    exact isNullLetter_of_isQuote hd

/-- A pass over the plain runs of a snippet edits it when it edits every run on its own. -/
theorem edits_mapPlain (hf : ∀ run, Edits false run (f run)) (code : Text) :
    Edits false code (mapPlain f code) := by
  suffices hall : (∀ c cs, code = c :: cs → isQuote c = true → Edits true code (mapPlain f code)) ∧
      Edits false code (mapPlain f code) from hall.2
  fun_induction segments code with
  | case1 =>
    rw [mapPlain_nil]
    exact ⟨fun _ _ _ _ => .nil, .nil⟩
  | case2 c cs hq ih =>
    have hnil : (literalRest c cs).2 = [] → mapPlain f (literalRest c cs).2 = [] := fun h => by
      rw [h, mapPlain_nil]
    rw [mapPlain_literal f hq]
    have hkeep : Edits true (c :: cs) (c :: ((literalRest c cs).1 ++ mapPlain f (literalRest c cs).2)) :=
      .keep c (edits_literalRest hq cs hnil ih.2)
    exact ⟨fun _ _ _ _ => hkeep, hkeep.weaken⟩
  | case3 c cs hq ih =>
    refine ⟨fun d ds h hd => ?_, ?_⟩
    · obtain ⟨rfl, rfl⟩ := List.cons.inj h
      exact absurd hd hq
    · have hrest : Edits true (cs.dropWhile isNotQuote) (mapPlain f (cs.dropWhile isNotQuote)) := by
        cases hcs : cs.dropWhile isNotQuote with
        | nil =>
          rw [mapPlain_nil]
          exact .nil
        | cons d ds => exact hcs ▸ ih.1 d ds hcs (isQuote_of_dropWhile hcs)
      have hrun := hf (c :: cs.takeWhile isNotQuote)
      have hall := hrun.append (headIs_mapPlain_dropWhile cs) hrest
      rw [List.cons_append, List.takeWhile_append_dropWhile] at hall
      rwa [mapPlain_run f (by simpa using hq)]

end Segments

section Substitution

/-- What is written for a name edits a text in which the name stands apart. -/
structure Spares (name : Text) (written : Text → Text → Text) : Prop where
  edits : ∀ before after {s t : Text}, headIs isNullLetter t = false → Edits true s t →
    Edits true (name ++ s) (written before after ++ t)
  begins : headIs continuesName name = false →
    ∀ before after, headIs isNullLetter (written before after) = false

variable {name : Text} {written : Text → Text → Text}

/-- What is written where no name goes on begins with no letter of the word. -/
theorem begins_substituteFrom (h : Spares name written) (skip : Nat) (before s : Text)
    (hs : headIs continuesName (s.drop skip) = false) :
    headIs isNullLetter (substituteFrom name written skip before s) = false := by
  have hbegins : ∀ {before rest after}, headIs continuesName rest = false →
      occursAt? name before rest = some after → headIs isNullLetter (written before after) = false := by
    intro before rest after hrest hoccurs
    refine h.begins ?_ before after
    rw [(of_occursAt? hoccurs).1] at hrest
    cases name with
    | nil => rfl
    | cons c cs => exact hrest
  fun_induction substituteFrom name written skip before s with
  | case1 skip before c cs ih => exact ih hs
  | case2 => rfl
  | case3 before =>
    cases hoccurs : occursAt? name before [] with
    | none => rfl
    | some after => exact hbegins hs hoccurs
  | case4 before c cs hnone ih => exact isNullLetter_of_not_continuesName hs
  | case5 before c cs after hsome ih ih' =>
    have hhead := hbegins hs hsome
    cases hwritten : written before after with
    | cons d ds =>
      rw [hwritten] at hhead
      exact hhead
    | nil =>
      rw [List.nil_append]
      obtain ⟨hsplit, hafter⟩ := of_occursAt? hsome
      split
      next => exact isNullLetter_of_not_continuesName hs
      next hname =>
        refine ih' ?_
        obtain ⟨d, ds, rfl⟩ := List.exists_cons_of_ne_nil (List.isEmpty_eq_false_iff.mp (by simpa using hname))
        rw [List.cons_append] at hsplit
        obtain ⟨rfl, rfl⟩ := List.cons.inj hsplit
        rwa [List.length_cons, Nat.add_sub_cancel, List.drop_left]

theorem edits_substituteFrom (h : Spares name written) (skip : Nat) (before s : Text) :
    Edits true (s.drop skip) (substituteFrom name written skip before s) := by
  fun_induction substituteFrom name written skip before s with
  | case1 skip before c cs ih => exact ih
  | case2 => exact .nil
  | case3 before =>
    cases hoccurs : occursAt? name before [] with
    | none => exact .nil
    | some after =>
      obtain ⟨hsplit, _⟩ := of_occursAt? hoccurs
      obtain ⟨rfl, rfl⟩ := List.append_eq_nil_iff.mp hsplit.symm
      have hwritten := h.edits before [] (s := []) (t := []) rfl .nil
      rwa [List.append_nil, List.append_nil] at hwritten
  | case4 before c cs hnone ih => exact .keep c ih.weaken
  | case5 before c cs after hsome ih ih' =>
    obtain ⟨hsplit, hafter⟩ := of_occursAt? hsome
    split
    next hname =>
      obtain rfl := List.isEmpty_iff.mp hname
      obtain rfl : c :: cs = after := hsplit
      exact h.edits before (c :: cs) (isNullLetter_of_not_continuesName hafter) (.keep c ih.weaken)
    next hname =>
      obtain ⟨d, ds, rfl⟩ := List.exists_cons_of_ne_nil (List.isEmpty_eq_false_iff.mp (by simpa using hname))
      rw [List.cons_append] at hsplit
      obtain ⟨rfl, rfl⟩ := List.cons.inj hsplit
      have hdrop : (ds ++ after).drop ((c :: ds).length - 1) = after := by
        rw [List.length_cons, Nat.add_sub_cancel, List.drop_left]
      rw [hdrop] at ih'
      exact h.edits before after (begins_substituteFrom h _ _ _ (by rwa [hdrop])) ih'

theorem edits_substitute (h : Spares name written) (s : Text) : Edits true s (substitute name written s) :=
  edits_substituteFrom h 0 [] s

/-- A text written for a name is the name itself or has it behind a lead. -/
def IsLed (written name : Text) : Prop := written = name ∨ ∃ lead, isBlock lead = true ∧ written = lead ++ name

theorem IsLed.edits {w : Text} (h : IsLed w name) {s t : Text} (hst : Edits true s t) :
    Edits true (name ++ s) (w ++ t) := by
  rcases h with rfl | ⟨lead, hlead, rfl⟩
  · exact hst.keepAll w
  · rw [List.append_assoc]
    exact .put [] hlead (hst.keepAll name)

theorem IsLed.begins {w : Text} (h : IsLed w name) (hname : headIs continuesName name = false) :
    headIs isNullLetter w = false := by
  rcases h with rfl | ⟨lead, hlead, rfl⟩
  · exact headIs_isNullLetter hname
  · obtain ⟨⟨c, cs, rfl, hc⟩, _⟩ := isBlock_iff.mp hlead
    exact hc

theorem spares_token {token : Text} (htoken : isBlock token = true) : Spares name fun _ _ => token where
  edits _ _ _ _ _ hst := .put name htoken hst
  begins _ _ _ := by
    obtain ⟨⟨c, cs, rfl, hc⟩, _⟩ := isBlock_iff.mp htoken
    exact hc

end Substitution

section Receptors

end Receptors

section Passes

variable {code name : Text}

theorem renameArgument_nullFree {token : Text} (htoken : isBlock token = true) (argument : Text)
    (hcode : NullFree code) : NullFree (renameArgument argument token code) :=
  (edits_mapPlain (fun run => (edits_substitute (spares_token htoken) run).weaken) code).nullFree hcode

theorem infix_trim (s : Text) : trim s <:+: s := by
  obtain ⟨front, back, hs, _⟩ := exists_trim s
  exact ⟨front, back, by rw [List.append_assoc]; exact hs.symm⟩

theorem unwrapBlock_nullFree (hcode : NullFree code) : NullFree (unwrapBlock code) := by
  unfold unwrapBlock
  split
  next rest hrest =>
    split
    next =>
      have hblock : rest <:+: code :=
        (List.suffix_cons _ rest).isInfix.trans (hrest ▸ infix_trim code)
      exact hcode.of_within ((infix_trim _).trans ((List.dropLast_prefix rest).isInfix.trans hblock))
    next => exact hcode
  next => exact hcode

end Passes

end ElementCompiler.Snippet
