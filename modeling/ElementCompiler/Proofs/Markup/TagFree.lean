import ElementCompiler.Markup.Attributes
import ElementCompiler.Proofs.Snippet.RefPasses
import ElementCompiler.Proofs.Snippet.Strip
import ElementCompiler.Proofs.Text.Class
import ElementCompiler.Proofs.Text.Indent
import ElementCompiler.Proofs.Text.Lower

set_option autoImplicit false

/-!
Texts without some of the characters that make tags: without both angle brackets, where no tag
begins or ends, or without the opening one. Trimming, indenting, changing case and rewriting
references leave them so.
-/

namespace ElementCompiler

open Text

namespace Markup

def isAngle (c : CodePoint) : Bool := c == '<' || c == '>'

def TagFree (s : Text) : Prop := ∀ c ∈ s, isAngle c = false

instance (s : Text) : Decidable (TagFree s) := inferInstanceAs (Decidable (∀ c ∈ s, _))

/-- No character of the text is one of those. -/
def Lacks (bad : CodePoint → Bool) (s : Text) : Prop := ∀ c ∈ s, bad c = false

section Basic

variable {bad : CodePoint → Bool} {s t : Text}

@[simp] theorem lacks_nil : Lacks bad [] := by simp [Lacks]

@[simp] theorem lacks_append : Lacks bad (s ++ t) ↔ Lacks bad s ∧ Lacks bad t := by
  simp only [Lacks, List.mem_append, or_imp, forall_and]

@[simp] theorem lacks_cons {c : CodePoint} :
    Lacks bad (c :: s) ↔ bad c = false ∧ Lacks bad s := by
  simp [Lacks]

@[simp] theorem tagFree_nil : TagFree [] := lacks_nil

@[simp] theorem tagFree_append : TagFree (s ++ t) ↔ TagFree s ∧ TagFree t := lacks_append

@[simp] theorem tagFree_cons {c : CodePoint} :
    TagFree (c :: s) ↔ isAngle c = false ∧ TagFree s := lacks_cons

/-- A text whose characters come from a text without some of them is without them. -/
theorem Lacks.of_mem (hs : Lacks bad s) (h : ∀ c ∈ t, c ∈ s ∨ bad c = false) : Lacks bad t :=
  fun c hc => (h c hc).elim (hs c) id

theorem Lacks.of_subset (hs : Lacks bad s) (h : t ⊆ s) : Lacks bad t := fun c hc => hs c (h hc)

theorem trim_subset (s : Text) : trim s ⊆ s := by
  intro c hc
  have hend := (List.dropWhile_sublist _).subset (List.mem_reverse.mp hc)
  exact (List.dropWhile_sublist _).subset (List.mem_reverse.mp hend)

theorem lacks_beq {d : CodePoint} : Lacks (· == d) s ↔ d ∉ s := by
  simp only [Lacks, beq_eq_false_iff_ne]
  exact ⟨fun h hd => h d hd rfl, fun h c hc => by rintro rfl; exact h hc⟩

theorem lacks_trim (hs : Lacks bad s) : Lacks bad (trim s) := hs.of_subset (trim_subset s)

theorem lacks_after? {pat : Text} (hs : Lacks bad s) (h : after? pat s = some t) : Lacks bad t := by
  rw [eq_append_of_after? h] at hs
  exact (lacks_append.mp hs).2

theorem mem_replaceFrom {pat new : Text} {skip : Nat} {c : CodePoint}
    (h : c ∈ replaceFrom pat new skip s) : c ∈ new ∨ c ∈ s := by
  fun_induction replaceFrom pat new skip s with
  | case1 => exact absurd h List.not_mem_nil
  | case2 skip d ds ih => exact (ih h).imp_right (List.mem_cons_of_mem d)
  | case3 d ds hstart ih =>
    rcases List.mem_append.mp h with hnew | hrest
    · exact Or.inl hnew
    · exact (ih hrest).imp_right (List.mem_cons_of_mem d)
  | case4 d ds hstart ih =>
    rcases List.mem_cons.mp h with rfl | hrest
    · exact Or.inr List.mem_cons_self
    · exact (ih hrest).imp_right (List.mem_cons_of_mem d)

end Basic

/-- What is lacked is an angle bracket, so a text that has none lacks it. -/
def IsAngular (bad : CodePoint → Bool) : Prop := ∀ c, bad c = true → isAngle c = true

theorem isAngular_isAngle : IsAngular isAngle := fun _ h => h

section Texts

variable {bad : CodePoint → Bool} (hbad : IsAngular bad) {s : Text}
include hbad

theorem IsAngular.of_not_isAngle {c : CodePoint} (h : isAngle c = false) : bad c = false := by
  refine Bool.eq_false_iff.mpr fun hc => ?_
  rw [hbad c hc] at h
  cases h

theorem IsAngular.lacks (h : TagFree s) : Lacks bad s := fun c hc => hbad.of_not_isAngle (h c hc)

theorem lacks_indentRest {width : Nat} (hs : Lacks bad s) : Lacks bad (indentRest width s) :=
  hs.of_mem fun _ hc => (mem_indentRest hc).imp_right fun h => by
    subst h
    exact hbad.of_not_isAngle rfl

theorem lacks_encodeQuotes (hs : Lacks bad s) : Lacks bad (encodeQuotes s) := by
  have hnew : Lacks bad (ofString "&quot;") := hbad.lacks (by decide)
  exact fun c hc => (mem_replaceFrom hc).elim (hnew c) (hs c)

omit hbad

theorem tagFree_bindMark : TagFree (ofString ".bind") := by decide

@[simp] theorem tagFree_openMark : TagFree (ofString "$\x7b") := by decide

@[simp] theorem tagFree_closeMark : TagFree (ofString "\x7d") := by decide

theorem isDigit_of_mem_toString (n : Nat) :
    ∀ c ∈ ofString (toString n), c.is Char.isDigit = true := by
  intro c hc
  have hdigits : ofString (toString n) = (Nat.toDigits 10 n).map .char := by
    change (Nat.repr n).toList.map _ = _
    rw [Nat.toList_repr]
  rw [hdigits, List.mem_map] at hc
  obtain ⟨d, hd, rfl⟩ := hc
  exact Nat.isDigit_of_mem_toDigits (by decide) (by decide) hd

theorem tagFree_toString (n : Nat) : TagFree (ofString (toString n)) := by
  intro c hc
  have hdigit := isDigit_of_mem_toString n c hc
  by_cases hangle : c = .char '<' ∨ c = .char '>'
  · rcases hangle with rfl | rfl <;> exact absurd hdigit (by decide)
  · simp_all [isAngle]

end Texts

section Case

theorem isAngle_beyondSigns {c : CodePoint} (h : IsBeyondSigns c) : isAngle c = false := by
  rw [isAngle, Bool.or_eq_false_iff, beq_eq_false_iff_ne, beq_eq_false_iff_ne]
  constructor
  all_goals
    rintro rfl
    revert h
    unfold IsBeyondSigns
    decide

/-- What is lacked is a sign of ASCII or one before them. -/
def AreSigns (bad : CodePoint → Bool) : Prop := ∀ c, IsBeyondSigns c → bad c = false

theorem IsAngular.areSigns {bad : CodePoint → Bool} (hbad : IsAngular bad) : AreSigns bad :=
  fun _ h => hbad.of_not_isAngle (isAngle_beyondSigns h)

theorem lacks_lower {bad : CodePoint → Bool} (hbad : AreSigns bad) {s : Text} (hs : Lacks bad s) :
    Lacks bad (lower s) := fun d hd => (mem_lower hd).elim (hs d) (hbad d)

end Case

section Snippets

open Snippet

variable {bad : CodePoint → Bool} {s : Text}

theorem lacks_mapPlain {f : Text → Text} (hf : ∀ run, Lacks bad run → Lacks bad (f run))
    (hs : Lacks bad s) : Lacks bad (mapPlain f s) := by
  rw [← flatMap_text_segments s] at hs
  intro c hc
  obtain ⟨part, hpart, hmem⟩ := List.mem_flatMap.mp hc
  have htext : Lacks bad part.text :=
    hs.of_subset fun d hd => List.mem_flatMap.mpr ⟨part, hpart, hd⟩
  cases part with
  | literal text => exact htext c hmem
  | plain text => exact hf text htext c hmem

/-- What is written for a name is written only where the name occurs. -/
theorem lacks_substituteFrom {name : Text} {written : Text → Text → Text}
    (hwritten : Lacks bad name → ∀ before after, Lacks bad (written before after))
    (hs : Lacks bad s) (skip : Nat) (before : Text) :
    Lacks bad (substituteFrom name written skip before s) := by
  have hname : ∀ {before rest after}, Lacks bad rest → occursAt? name before rest = some after →
      Lacks bad name := fun hrest h => (lacks_append.mp ((of_occursAt? h).1 ▸ hrest)).1
  fun_induction substituteFrom name written skip before s with
  | case1 skip before c cs ih => exact ih (lacks_cons.mp hs).2
  | case2 => exact lacks_nil
  | case3 before =>
    cases hoccurs : occursAt? name before [] with
    | none => exact lacks_nil
    | some after => exact hwritten (hname lacks_nil hoccurs) before after
  | case4 before c cs hnone ih =>
    rw [lacks_cons] at hs ⊢
    exact ⟨hs.1, ih hs.2⟩
  | case5 before c cs after hsome ih ih' =>
    have hhead := hwritten (hname hs hsome) before after
    rw [lacks_cons] at hs
    refine lacks_append.mpr ⟨hhead, ?_⟩
    split
    · exact lacks_cons.mpr ⟨hs.1, ih hs.2⟩
    · exact ih' hs.2

theorem lacks_renameArgument {argument token : Text} (htoken : Lacks bad token)
    (hs : Lacks bad s) : Lacks bad (renameArgument argument token s) :=
  lacks_mapPlain (fun _ hrun => lacks_substituteFrom (fun _ _ _ => htoken) hrun 0 []) hs

theorem lacks_replaceOne {written name : Text} (hwritten : Lacks bad name → Lacks bad written)
    (hs : Lacks bad s) : Lacks bad (replaceOne written name s) := by
  refine lacks_mapPlain (fun _ hrun => lacks_substituteFrom (fun hname _ _ => ?_) hrun 0 []) hs
  split
  · exact hname
  · exact hwritten hname

theorem IsAngular.lacks_name (hbad : IsAngular bad) {name : Text} (hname : IsName name) :
    Lacks bad name := by
  refine hbad.lacks fun c hc => ?_
  have hcontinues := hname.2 c hc
  by_contra hangle
  rw [Bool.not_eq_false, isAngle, Bool.or_eq_true, beq_iff_eq, beq_iff_eq] at hangle
  rcases hangle with rfl | rfl <;> exact absurd hcontinues (by decide)

theorem lacks_strip {receptor : Receptor} (hreceptor : ∀ name, IsName name → Lacks bad (receptor name))
    (hs : Lacks bad s) : Lacks bad (strip receptor s) := by
  refine lacks_mapPlain (fun run hrun => ?_) hs
  suffices hfrom : ∀ skip before, Lacks bad (stripFrom receptor skip before run) from hfrom 0 []
  intro skip before
  fun_induction stripFrom receptor skip before run with
  | case1 => exact lacks_nil
  | case2 skip before c cs ih => exact ih (lacks_cons.mp hrun).2
  | case3 before c cs hnone ih =>
    rw [lacks_cons] at hrun ⊢
    exact ⟨hrun.1, ih hrun.2⟩
  | case4 before c cs name hname ih =>
    exact lacks_append.mpr ⟨hreceptor name (isName_of_memberAt? hname),
      ih (lacks_cons.mp hrun).2⟩

theorem lacks_unwrapBlock (hs : Lacks bad s) : Lacks bad (unwrapBlock s) := by
  unfold unwrapBlock
  split
  next rest htrim =>
    have hrest : Lacks bad (.char '\x7b' :: rest) := htrim ▸ lacks_trim hs
    split
    · exact lacks_trim ((lacks_cons.mp hrest).2.of_subset (List.dropLast_subset _))
    · exact hs
  next => exact hs

end Snippets

end Markup
end ElementCompiler
