import ElementCompiler.Proofs.Text.Lines
import ElementCompiler.Proofs.Text.Lower
import ElementCompiler.Snippet.Occurrence
import ElementCompiler.Text.Kebab

set_option autoImplicit false

/-!
The word that a missing value shows as. Texts without it have none when they are put together, as long
as none of them runs on into the next at a letter of the word. An edit brings none into a text when it
puts in blocks that begin with no letter of the word, and takes characters out only where the word is
broken off on one side.
-/

namespace ElementCompiler.Text

open Snippet (headIs)

/-- What a missing value shows as in running text. -/
def nullWord : Text := "None"

/-- The word of a missing value does not occur. -/
def NullFree (s : Text) : Prop := occursIn nullWord s = false

instance (s : Text) : Decidable (NullFree s) := inferInstanceAs (Decidable (_ = _))

def isNullLetter (c : CodePoint) : Bool := nullWord.contains c

section Occurrences

theorem startsWith_iff {pat s : Text} : startsWith pat s = true ↔ pat <+: s := by
  constructor
  · intro h
    obtain ⟨rest, hrest⟩ := Option.isSome_iff_exists.mp h
    exact ⟨rest, (eq_append_of_after? hrest).symm⟩
  · rintro ⟨rest, rfl⟩
    exact startsWith_append pat rest

theorem occursIn_iff {pat s : Text} : occursIn pat s = true ↔ pat <:+: s := by
  induction s with
  | nil => rw [occursIn, List.isEmpty_iff, List.infix_nil]
  | cons c cs ih => rw [occursIn, Bool.or_eq_true, startsWith_iff, ih, List.infix_cons_iff]

variable {s t : Text}

theorem nullFree_iff : NullFree s ↔ ¬ nullWord <:+: s := by
  rw [NullFree, ← Bool.not_eq_true, occursIn_iff]

theorem nullFree_nil : NullFree [] := by decide

theorem nullFree_cons {c : CodePoint} :
    NullFree (c :: s) ↔ ¬ nullWord <+: c :: s ∧ NullFree s := by
  rw [nullFree_iff, nullFree_iff, List.infix_cons_iff, not_or]

theorem NullFree.of_within (hs : NullFree s) (h : t <:+: s) : NullFree t :=
  nullFree_iff.mpr fun ht => nullFree_iff.mp hs (ht.trans h)

/-- A character that is no letter of the word breaks it off. -/
theorem nullFree_append_cons {c : CodePoint} (hc : isNullLetter c = false) :
    NullFree (s ++ c :: t) ↔ NullFree s ∧ NullFree t := by
  have hmem : c ∉ nullWord := fun h => by simp [isNullLetter, h] at hc
  rw [NullFree, occursIn_append_cons (by decide) hmem, Bool.or_eq_false_iff]
  rfl

theorem nullFree_of_notMem (h : CodePoint.char 'N' ∉ s) : NullFree s := by
  rw [NullFree, Bool.eq_false_iff]
  exact fun hoccurs => h (mem_of_occursIn hoccurs (by decide))

theorem NullFree.prepend (hs : CodePoint.char 'N' ∉ s) (ht : NullFree t) : NullFree (s ++ t) := by
  induction s with
  | nil => exact ht
  | cons c cs ih =>
    rw [List.mem_cons, not_or] at hs
    refine nullFree_cons.mpr ⟨fun hstart => ?_, ih hs.2⟩
    exact hs.1 (List.cons_prefix_cons.mp hstart).1

theorem NullFree.append_of_begins (hs : NullFree s) (ht : NullFree t)
    (h : headIs isNullLetter t = false) : NullFree (s ++ t) := by
  cases t with
  | nil => rwa [List.append_nil]
  | cons c cs => exact (nullFree_append_cons h).mpr ⟨hs, (nullFree_cons.mp ht).2⟩

/-- A text that ends in no letter of the word does not run on into the next one. -/
def EndsApart (s : Text) : Prop := ∀ c, s.getLast? = some c → isNullLetter c = false

end Occurrences

section Seams

/-- A text without the word that keeps apart what stands before and behind it. -/
def isSeam (s : Text) : Bool :=
  !occursIn nullWord s && s.head?.any (fun c => !isNullLetter c) &&
    s.getLast?.any fun c => !isNullLetter c

variable {m s t : Text}

theorem isSeam_iff : isSeam m = true ↔ NullFree m ∧ (∃ c cs, m = c :: cs ∧ isNullLetter c = false) ∧
    ∃ init d, m = init ++ [d] ∧ isNullLetter d = false := by
  have hlast : (∃ d, m.getLast? = some d ∧ isNullLetter d = false) ↔
      ∃ init d, m = init ++ [d] ∧ isNullLetter d = false := by
    simp only [List.getLast?_eq_some_iff]
    exact ⟨fun ⟨d, ⟨init, hm⟩, hd⟩ => ⟨init, d, hm, hd⟩, fun ⟨init, d, hm, hd⟩ => ⟨d, ⟨init, hm⟩, hd⟩⟩
  have hfirst : (∃ c, m.head? = some c ∧ isNullLetter c = false) ↔
      ∃ c cs, m = c :: cs ∧ isNullLetter c = false := by
    simp only [List.head?_eq_some_iff]
    exact ⟨fun ⟨c, ⟨cs, hm⟩, hc⟩ => ⟨c, cs, hm, hc⟩, fun ⟨c, cs, hm, hc⟩ => ⟨c, ⟨cs, hm⟩, hc⟩⟩
  rw [← hfirst, ← hlast, isSeam, Bool.and_eq_true, Bool.and_eq_true, Bool.not_eq_true',
    Option.any_eq_true, Option.any_eq_true]
  simp only [Bool.not_eq_true', and_assoc]
  exact Iff.rfl

theorem NullFree.around (hm : isSeam m = true) (hs : NullFree s) (ht : NullFree t) :
    NullFree (s ++ m ++ t) := by
  obtain ⟨hfree, ⟨c, cs, rfl, hc⟩, init, d, hend, hd⟩ := isSeam_iff.mp hm
  have hfront : NullFree (s ++ c :: cs) :=
    (nullFree_append_cons hc).mpr ⟨hs, (nullFree_cons.mp hfree).2⟩
  rw [hend] at hfront ⊢
  rw [← List.append_assoc, List.append_assoc (s ++ init), List.singleton_append, nullFree_append_cons hd]
  refine ⟨hfront.of_within ?_, ht⟩
  rw [← List.append_assoc]
  exact (List.prefix_append _ [d]).isInfix

theorem NullFree.behind (hm : isSeam m = true) (ht : NullFree t) : NullFree (m ++ t) :=
  NullFree.around hm nullFree_nil ht

theorem NullFree.before (hm : isSeam m = true) (hs : NullFree s) : NullFree (s ++ m) := by
  rw [← List.append_nil (s ++ m)]
  exact NullFree.around hm hs nullFree_nil

theorem EndsApart.append (hs : EndsApart s) (ht : EndsApart t) : EndsApart (s ++ t) := by
  intro c hc
  rw [List.getLast?_append, Option.or_eq_some_iff] at hc
  exact hc.elim (ht c) fun h => hs c h.2

variable {texts : List Text}

theorem NullFree.join (hm : isSeam m = true) (h : ∀ s ∈ texts, NullFree s) : NullFree (join m texts) := by
  fun_induction Text.join m texts with
  | case1 => exact nullFree_nil
  | case2 s => exact h s List.mem_cons_self
  | case3 s rest hne ih =>
    obtain ⟨hs, hrest⟩ := List.forall_mem_cons.mp h
    exact NullFree.around hm hs (ih hrest)

theorem infix_join (hs : s ∈ texts) : s <:+: join m texts := by
  fun_induction Text.join m texts with
  | case1 => cases hs
  | case2 first =>
    obtain rfl := List.mem_singleton.mp hs
    exact List.infix_refl _
  | case3 first rest hne ih =>
    rcases List.mem_cons.mp hs with rfl | hs
    · rw [List.append_assoc]
      exact (List.prefix_append _ _).isInfix
    · exact (ih hs).trans (List.suffix_append _ _).isInfix

end Seams

section Edits

/-- Text that an edit puts in: it begins with no letter of the word and cannot begin the word later. -/
def isBlock (s : Text) : Bool := s.head?.any (fun c => !isNullLetter c) && !s.contains 'N'

/-- One text edited to another. Characters are kept; a block is put in, perhaps in the place of others;
    others are taken out behind or before what is no letter of the word. `joined` says whether a letter
    may stand before. -/
inductive Edits : (joined : Bool) → Text → Text → Prop where
  | nil {joined : Bool} : Edits joined [] []
  | keep {joined : Bool} {s t : Text} (c : CodePoint) (h : Edits (isNullLetter c) s t) :
    Edits joined (c :: s) (c :: t)
  | put {joined : Bool} {s t : Text} (out : Text) {block : Text} (hblock : isBlock block = true)
    (h : Edits true s t) : Edits joined (out ++ s) (block ++ t)
  | cutBehind {s t : Text} (out : Text) (h : Edits false s t) : Edits false (out ++ s) t
  | cutBefore {joined : Bool} {s t : Text} (out : Text) (ht : headIs isNullLetter t = false)
    (h : Edits true s t) : Edits joined (out ++ s) t

variable {joined : Bool} {s t s' t' : Text}

theorem isBlock_iff {block : Text} : isBlock block = true ↔
    (∃ c cs, block = c :: cs ∧ isNullLetter c = false) ∧ CodePoint.char 'N' ∉ block := by
  rw [isBlock, Bool.and_eq_true, Option.any_eq_true]
  simp only [List.head?_eq_some_iff, Bool.not_eq_true', List.contains_eq_mem, decide_eq_false_iff_not]
  exact and_congr_left fun _ =>
    ⟨fun ⟨c, ⟨cs, hb⟩, hc⟩ => ⟨c, cs, hb, hc⟩, fun ⟨c, cs, hb, hc⟩ => ⟨c, ⟨cs, hb⟩, hc⟩⟩

namespace Edits

/-- Letters of the word that stand one after the other in the edited text stood so before. -/
theorem prefix_of_prefix (h : Edits joined s t) (hjoined : joined = true) {w : Text}
    (hw : ∀ c ∈ w, isNullLetter c = true) (hwt : w <+: t) : w <+: s := by
  induction h generalizing w with
  | nil => exact hwt
  | keep c h ih =>
    cases w with
    | nil => exact List.nil_prefix
    | cons d ds =>
      obtain ⟨rfl, hds⟩ := List.cons_prefix_cons.mp hwt
      obtain ⟨hd, hw⟩ := List.forall_mem_cons.mp hw
      exact List.cons_prefix_cons.mpr ⟨rfl, ih hd hw hds⟩
  | put out hblock h ih =>
    cases w with
    | nil => exact List.nil_prefix
    | cons d ds =>
      obtain ⟨⟨c, cs, rfl, hc⟩, _⟩ := isBlock_iff.mp hblock
      obtain ⟨rfl, _⟩ := List.cons_prefix_cons.mp hwt
      rw [hw d List.mem_cons_self] at hc
      cases hc
  | cutBehind out h ih => cases hjoined
  | @cutBefore _ s t out ht h ih =>
    cases w with
    | nil => exact List.nil_prefix
    | cons d ds =>
      obtain ⟨rest, rfl⟩ := hwt
      have hd : isNullLetter d = false := ht
      rw [hw d List.mem_cons_self] at hd
      cases hd

/-- An edit brings the word into no text. -/
theorem nullFree (h : Edits joined s t) (hs : NullFree s) : NullFree t := by
  induction h with
  | nil => exact hs
  | keep c h ih =>
    rw [nullFree_cons] at hs ⊢
    refine ⟨fun hstart => hs.1 ?_, ih hs.2⟩
    obtain ⟨rfl, hrest⟩ := List.cons_prefix_cons.mp hstart
    exact List.cons_prefix_cons.mpr ⟨rfl, h.prefix_of_prefix rfl (by decide) hrest⟩
  | put out hblock h ih =>
    exact NullFree.prepend (isBlock_iff.mp hblock).2 (ih (hs.of_within (List.suffix_append _ _).isInfix))
  | cutBehind out h ih => exact ih (hs.of_within (List.suffix_append _ _).isInfix)
  | cutBefore out ht h ih => exact ih (hs.of_within (List.suffix_append _ _).isInfix)

theorem weaken (h : Edits true s t) : Edits joined s t := by
  cases h with
  | nil => exact .nil
  | keep c h => exact .keep c h
  | put out hblock h => exact .put out hblock h
  | cutBefore out ht h => exact .cutBefore out ht h

theorem keepAll (run : Text) (h : Edits true s t) : Edits joined (run ++ s) (run ++ t) := by
  induction run generalizing joined with
  | nil => exact h.weaken
  | cons c cs ih => exact .keep c ih

theorem refl (s : Text) : Edits joined s s := by
  have h : Edits joined (s ++ []) (s ++ []) := keepAll s .nil
  rwa [List.append_nil] at h

theorem append (h : Edits joined s t) (ht' : headIs isNullLetter t' = false) (h' : Edits true s' t') :
    Edits joined (s ++ s') (t ++ t') := by
  induction h with
  | nil => exact h'.weaken
  | keep c _ ih => exact .keep c ih
  | put out hblock _ ih =>
    rw [List.append_assoc, List.append_assoc]
    exact .put out hblock ih
  | cutBehind out _ ih =>
    rw [List.append_assoc]
    exact .cutBehind out ih
  | @cutBefore _ s t out ht _ ih =>
    rw [List.append_assoc]
    refine .cutBefore out ?_ ih
    cases t with
    | nil => exact ht'
    | cons c cs => exact ht

end Edits

/-- A pattern replaced by a block. -/
theorem edits_replaceFrom {pat new : Text} (hpat : pat ≠ []) (hnew : isBlock new = true) (s : Text) :
    Edits true s (replaceFrom pat new 0 s) := by
  have hskip : ∀ run rest : Text,
      replaceFrom pat new run.length (run ++ rest) = replaceFrom pat new 0 rest := by
    intro run rest
    induction run with
    | nil => rfl
    | cons c cs ih => rw [List.length_cons, List.cons_append, replaceFrom, ih]
  obtain ⟨p, ps, rfl⟩ := List.exists_cons_of_ne_nil hpat
  induction hlength : s.length using Nat.strongRecOn generalizing s with
  | ind length ih =>
    cases s with
    | nil => exact .nil
    | cons c cs =>
      rw [replaceFrom]
      split
      next hstart =>
        obtain ⟨rest, hrest⟩ := startsWith_iff.mp hstart
        rw [List.cons_append] at hrest
        obtain ⟨rfl, rfl⟩ := List.cons.inj hrest
        rw [List.length_cons, Nat.add_sub_cancel, hskip]
        refine .put (p :: ps) hnew (ih rest.length ?_ rest rfl)
        rw [← hlength]
        simp only [List.length_cons, List.length_append]
        omega
      next => exact .keep c (ih cs.length (by rw [← hlength]; exact Nat.lt_succ_self _) cs rfl).weaken

theorem edits_replace {pat new : Text} (hpat : pat.isEmpty = false) (hnew : isBlock new = true) (s : Text) :
    Edits true s (replace pat new s) := by
  rw [replace, hpat]
  exact edits_replaceFrom (List.isEmpty_eq_false_iff.mp hpat) hnew s

theorem edits_indentRest (width : Nat) (s : Text) : Edits true s (indentRest (width + 1) s) := by
  have hpad : isBlock (pad (width + 1)) = true :=
    isBlock_iff.mpr ⟨⟨_, _, List.replicate_succ, by decide⟩, fun h => by
      simpa using List.eq_of_mem_replicate h⟩
  induction s with
  | nil => exact .nil
  | cons c cs ih =>
    rw [indentRest_cons]
    refine .keep c ?_
    unfold linePad
    split
    · exact .put [] hpad ih
    · exact ih.weaken

end Edits

section Case

theorem notMem_lower (s : Text) : CodePoint.char 'N' ∉ lower s := fun h => by
  cases isUpper_of_mem_lower h

end Case

section Indentation

variable {s : Text}

theorem NullFree.indentRest (hs : NullFree s) (width : Nat) : NullFree (indentRest (width + 1) s) :=
  (edits_indentRest width s).nullFree hs

theorem NullFree.pad (hs : NullFree s) (width : Nat) : NullFree (pad width ++ s) :=
  NullFree.prepend (fun h => by simpa using List.eq_of_mem_replicate h) hs

theorem NullFree.indentBlock (hs : NullFree s) (width : Nat) : NullFree (indentBlock width s) := by
  refine NullFree.join (by decide) fun line hline => ?_
  obtain ⟨l, hl, rfl⟩ := List.mem_map.mp hline
  have hfree : NullFree l := hs.of_within (join_lines s ▸ infix_join hl)
  unfold indentLine
  split
  · exact hfree
  · exact hfree.pad width

theorem infix_of_mem_pieces {piece : Text} (h : piece ∈ pieces s) : piece <:+: s := by
  suffices hall : (∃ first rest, pieces s = first :: rest ∧ first <+: s) ∧ ∀ p ∈ pieces s, p <:+: s from
    hall.2 piece h
  clear h
  fun_induction pieces s with
  | case1 => exact ⟨⟨_, _, rfl, List.nil_prefix⟩, by simp⟩
  | case2 cs ih =>
    refine ⟨⟨_, _, rfl, List.nil_prefix⟩, List.forall_mem_cons.mpr ⟨List.nil_infix, fun p hp => ?_⟩⟩
    exact (ih.2 p hp).trans ((List.suffix_cons _ cs).trans (List.suffix_cons _ _)).isInfix
  | case3 c cs _ hend ih =>
    refine ⟨⟨_, _, rfl, List.nil_prefix⟩, List.forall_mem_cons.mpr ⟨List.nil_infix, fun p hp => ?_⟩⟩
    exact (ih.2 p hp).trans (List.suffix_cons c cs).isInfix
  | case4 c cs _ hend hpieces ih =>
    obtain ⟨⟨first, rest, hfirst, _⟩, _⟩ := ih
    rw [hpieces] at hfirst
    cases hfirst
  | case5 c cs _ hend l ls hpieces ih =>
    obtain ⟨⟨first, rest, hfirst, hprefix⟩, hall⟩ := ih
    obtain ⟨rfl, rfl⟩ := List.cons.inj (hpieces.symm.trans hfirst)
    have hcons : c :: l <+: c :: cs := List.cons_prefix_cons.mpr ⟨rfl, hprefix⟩
    refine ⟨⟨_, _, rfl, hcons⟩, List.forall_mem_cons.mpr ⟨hcons.isInfix, fun p hp => ?_⟩⟩
    refine (hall p ?_).trans (List.suffix_cons c cs).isInfix
    rw [hpieces]
    exact List.mem_cons_of_mem l hp

theorem NullFree.indentSection (hs : NullFree s) : NullFree (indentSection s) := by
  have hlines : ∀ line ∈ sectionLines s, NullFree line := fun line hline =>
    (NullFree.before (m := "\n") (by decide) hs).of_within
      (infix_of_mem_pieces (List.dropLast_subset _ hline))
  unfold Text.indentSection
  split
  next => exact nullFree_nil
  next first rest hparts =>
    rw [hparts, List.forall_mem_cons] at hlines
    refine NullFree.join (by decide) (List.forall_mem_cons.mpr ⟨hlines.1.pad 2, fun line hline => ?_⟩)
    obtain ⟨l, hl, rfl⟩ := List.mem_map.mp hline
    unfold indentNonEmpty
    split
    · exact hlines.2 l hl
    · exact (hlines.2 l hl).pad 2

end Indentation

end ElementCompiler.Text
