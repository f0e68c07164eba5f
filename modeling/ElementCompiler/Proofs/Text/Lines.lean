import ElementCompiler.Proofs.Text.Indent
import ElementCompiler.Proofs.Text.Split

set_option autoImplicit false

/-!
The lines of a text that is broken at each newline, and blocks that are indented line by line. A
section is indented so as well when a newline is all that ends a line of it.
-/

namespace ElementCompiler.Text

variable {s : Text}

theorem lines_ne_nil (s : Text) : lines s ≠ [] := by
  fun_cases lines s with
  | case1 => exact List.cons_ne_nil _ _
  | case2 cs => exact List.cons_ne_nil _ _
  | case3 c cs hc hlines => exact List.cons_ne_nil _ _
  | case4 c cs hc l ls hlines => exact List.cons_ne_nil _ _

theorem lines_newline (cs : Text) : lines (.char '\n' :: cs) = [] :: lines cs := if_pos rfl

/-- A character that is no newline stands at the start of the first line. -/
theorem lines_cons {c : CodePoint} (hc : c ≠ '\n') {cs l : Text} {ls : List Text}
    (h : lines cs = l :: ls) : lines (c :: cs) = (c :: l) :: ls := by
  rw [lines, if_neg hc, h]

theorem lines_append_newline (s t : Text) : lines (s ++ .char '\n' :: t) = lines s ++ lines t := by
  induction s with
  | nil => exact lines_newline t
  | cons c cs ih =>
    obtain ⟨l, ls, hl⟩ := List.exists_cons_of_ne_nil (lines_ne_nil cs)
    rw [List.cons_append]
    by_cases hc : c = '\n'
    · rw [hc, lines_newline, lines_newline, ih, List.cons_append]
    · have hlines : lines (cs ++ .char '\n' :: t) = l :: (ls ++ lines t) := by rw [ih, hl, List.cons_append]
      rw [lines_cons hc hlines, lines_cons hc hl, List.cons_append]

theorem lines_join {texts : List Text} (hne : texts ≠ []) :
    lines (join "\n" texts) = texts.flatMap lines := by
  obtain ⟨t, texts, rfl⟩ := List.exists_cons_of_ne_nil hne
  induction texts generalizing t with
  | nil => simp
  | cons u us ih =>
    have hsplit : join "\n" (t :: u :: us) = t ++ .char '\n' :: join "\n" (u :: us) := by
      simp [join_cons_cons, ofString]
    rw [hsplit, lines_append_newline, ih u (List.cons_ne_nil _ _)]
    rfl

theorem join_lines (s : Text) : join "\n" (lines s) = s := by
  induction s with
  | nil => rfl
  | cons c cs ih =>
    obtain ⟨l, ls, hl⟩ := List.exists_cons_of_ne_nil (lines_ne_nil cs)
    rw [hl] at ih
    by_cases hc : c = '\n'
    · rw [hc, lines_newline, hl, join_cons_cons, ih]
      rfl
    · rw [lines_cons hc hl, ← ih]
      cases ls <;> rfl

theorem join_flatten {lists : List (List Text)} (h : ∀ l ∈ lists, l ≠ []) :
    join "\n" lists.flatten = join "\n" (lists.map (join "\n")) := by
  induction lists with
  | nil => rfl
  | cons l lists ih =>
    have hrest := ih fun k hk => h k (List.mem_cons_of_mem _ hk)
    rw [List.flatten_cons, List.map_cons]
    cases lists with
    | nil => simp
    | cons k lists =>
      obtain ⟨t, ts, hts⟩ := List.exists_cons_of_ne_nil (l := (k :: lists).flatten) (by
        obtain ⟨u, us, rfl⟩ := List.exists_cons_of_ne_nil (h k (by simp))
        simp)
      rw [List.map_cons, join_cons_cons, ← List.map_cons, ← hrest, hts, join_append_cons,
        unlines_eq_join (h l List.mem_cons_self)]
      rfl

/-- A block is indented part by part. -/
theorem indentBlock_join (width : Nat) (texts : List Text) :
    indentBlock width (join "\n" texts) = join "\n" (texts.map (indentBlock width)) := by
  by_cases hne : texts = []
  · rw [hne]
    rfl
  · rw [indentBlock, lines_join hne, List.map_flatMap, List.flatMap_def, join_flatten, List.map_map]
    · rfl
    · intro l hl
      obtain ⟨t, _, rfl⟩ := List.mem_map.mp hl
      exact fun hnil => lines_ne_nil t (List.map_eq_nil_iff.mp hnil)

section Sections

/-- The section with two blanks before each of its lines that has text. -/
def indentedLines (s : Text) : Text := join "\n" ((lines s).map (indentNonEmpty 2))

/-- Only newlines end lines. -/
def BreaksAtNewlines (s : Text) : Prop := ∀ c ∈ s, c.is isLineEnd = true → c = '\n'

theorem breaksAtNewlines_cons {c : CodePoint} {cs : Text} :
    BreaksAtNewlines (c :: cs) ↔ (c.is isLineEnd = true → c = '\n') ∧ BreaksAtNewlines cs :=
  List.forall_mem_cons

theorem pieces_newline (cs : Text) : pieces (.char '\n' :: cs) = [] :: pieces cs := by
  rw [pieces]
  · rfl
  · rintro _ ⟨⟩

theorem pieces_eq_lines (h : BreaksAtNewlines s) : pieces s = lines s := by
  induction s with
  | nil => rfl
  | cons c cs ih =>
    obtain ⟨hc, hcs⟩ := breaksAtNewlines_cons.mp h
    by_cases hline : c = .char '\n'
    · rw [hline, pieces_newline, lines_newline, ih hcs]
    · have hend : c.is isLineEnd = false := by simpa [hline] using hc
      have hreturn : c ≠ .char '\r' := by
        rintro rfl
        cases hend
      rw [pieces, hend, if_neg Bool.false_ne_true, lines, if_neg hline, ih hcs]
      rintro _ ⟨⟩
      exact absurd rfl hreturn

theorem sectionLines_eq_lines (h : BreaksAtNewlines s) : sectionLines s = lines s := by
  have hended : BreaksAtNewlines (s ++ [.char '\n']) := by
    intro c hc
    rcases List.mem_append.mp hc with hc | hc
    · exact h c hc
    · exact fun _ => List.mem_singleton.mp hc
  have hpieces : pieces (s ++ [.char '\n']) = lines s ++ [[]] := by
    rw [pieces_eq_lines hended, lines_append_newline]
    rfl
  change (pieces (s ++ [.char '\n'])).dropLast = lines s
  rw [hpieces, List.dropLast_concat]

theorem startsLine_iff {first : Text} {rest : List Text} (h : lines s = first :: rest) :
    startsLine s = true ↔ first ≠ [] := by
  cases s with
  | nil =>
    obtain ⟨rfl, -⟩ := List.cons.inj h
    simp [startsLine]
  | cons c cs =>
    by_cases hc : c = .char '\n'
    · rw [hc, lines_newline] at h
      obtain ⟨rfl, -⟩ := List.cons.inj h
      simp [startsLine, hc]
    · obtain ⟨l, ls, hl⟩ := List.exists_cons_of_ne_nil (lines_ne_nil cs)
      rw [lines_cons hc hl] at h
      obtain ⟨rfl, -⟩ := List.cons.inj h
      simp [startsLine, hc]

theorem join_append_head (sep lead s : Text) (rest : List Text) :
    join sep ((lead ++ s) :: rest) = lead ++ join sep (s :: rest) := by
  cases rest with
  | nil => rfl
  | cons t ts => rw [join_cons_cons, join_cons_cons, List.append_assoc, List.append_assoc, List.append_assoc]

/-- The first line is the only one that is indented when it is empty. -/
theorem indentSection_of_breaks (h : BreaksAtNewlines s) :
    indentSection s = (if startsLine s then [] else pad 2) ++ indentedLines s := by
  obtain ⟨first, rest, hlines⟩ := List.exists_cons_of_ne_nil (lines_ne_nil s)
  rw [indentSection, sectionLines_eq_lines h, indentedLines, hlines, List.map_cons, ← join_append_head]
  dsimp only
  cases first with
  | nil =>
    have hstart : startsLine s = false := by simpa using mt (startsLine_iff hlines).mp
    rw [hstart]
    rfl
  | cons c cs =>
    rw [(startsLine_iff hlines).mpr (List.cons_ne_nil c cs)]
    rfl

theorem mem_join {sep : Text} {texts : List Text} {c : CodePoint} (h : c ∈ join sep texts) :
    c ∈ sep ∨ ∃ t ∈ texts, c ∈ t := by
  fun_induction join sep texts with
  | case1 => cases h
  | case2 t => exact .inr ⟨t, List.mem_cons_self, h⟩
  | case3 t rest _ ih =>
    rcases List.mem_append.mp h with h | h
    · rcases List.mem_append.mp h with h | h
      · exact .inr ⟨t, List.mem_cons_self, h⟩
      · exact .inl h
    · exact (ih h).imp_right fun ⟨u, hu, hc⟩ => ⟨u, List.mem_cons_of_mem _ hu, hc⟩

theorem mem_join_of_mem {sep t : Text} {texts : List Text} (ht : t ∈ texts) {c : CodePoint} (hc : c ∈ t) :
    c ∈ join sep texts := by
  fun_induction join sep texts with
  | case1 => cases ht
  | case2 u => exact List.mem_singleton.mp ht ▸ hc
  | case3 u rest _ ih =>
    rcases List.mem_cons.mp ht with rfl | ht
    · exact List.mem_append_left _ (List.mem_append_left _ hc)
    · exact List.mem_append_right _ (ih ht)

/-- No piece has a character that ends a line. -/
theorem isLineEnd_pieces (s : Text) : ∀ piece ∈ pieces s, ∀ c ∈ piece, c.is isLineEnd = false := by
  fun_induction pieces s with
  | case1 => simp
  | case2 cs ih => exact List.forall_mem_cons.mpr ⟨by simp, ih⟩
  | case3 c cs _ hend ih => exact List.forall_mem_cons.mpr ⟨by simp, ih⟩
  | case4 c cs _ hend _ _ => simpa using hend
  | case5 c cs _ hend l ls hpieces ih =>
    rw [hpieces] at ih
    obtain ⟨hl, hls⟩ := List.forall_mem_cons.mp ih
    exact List.forall_mem_cons.mpr ⟨List.forall_mem_cons.mpr ⟨Bool.eq_false_iff.mpr hend, hl⟩, hls⟩

/-- Whatever ends a line of a section is written as a newline. -/
theorem breaksAtNewlines_indentSection (s : Text) : BreaksAtNewlines (indentSection s) := by
  have hpad : ∀ c ∈ pad 2, c.is isLineEnd = false := fun c hc => by
    rw [List.eq_of_mem_replicate hc]
    rfl
  have hsection : ∀ piece ∈ sectionLines s, ∀ c ∈ piece, c.is isLineEnd = false := fun piece hpiece =>
    isLineEnd_pieces _ piece (List.dropLast_subset _ hpiece)
  intro c hc hend
  rw [indentSection] at hc
  split at hc
  next => cases hc
  next first rest hlines =>
    rw [hlines] at hsection
    rcases mem_join hc with hc | ⟨line, hline, hc⟩
    · exact List.mem_singleton.mp hc
    · have hfree : c.is isLineEnd = false := by
        rcases List.mem_cons.mp hline with rfl | hline
        · rcases List.mem_append.mp hc with hc | hc
          · exact hpad c hc
          · exact hsection first List.mem_cons_self c hc
        · obtain ⟨piece, hpiece, rfl⟩ := List.mem_map.mp hline
          rw [indentNonEmpty] at hc
          split at hc
          next => exact hsection piece (List.mem_cons_of_mem _ hpiece) c hc
          next =>
            rcases List.mem_append.mp hc with hc | hc
            · exact hpad c hc
            · exact hsection piece (List.mem_cons_of_mem _ hpiece) c hc
      rw [hfree] at hend
      cases hend

/-- Indented line by line, a text keeps its characters. -/
theorem mem_indentedLines {c : CodePoint} (hc : c ∈ s) (hline : c ≠ '\n') : c ∈ indentedLines s := by
  rw [← join_lines s] at hc
  rcases mem_join hc with hc | ⟨line, hmem, hc⟩
  · exact absurd (List.mem_singleton.mp hc) hline
  · refine mem_join_of_mem (List.mem_map_of_mem hmem) ?_
    rw [indentNonEmpty]
    split
    next => exact hc
    next => exact List.mem_append_right _ hc

end Sections
end ElementCompiler.Text
