import ElementCompiler.Proofs.Module.Assembly
import ElementCompiler.Proofs.Module.Sections
import ElementCompiler.Proofs.Text.Lines

set_option autoImplicit false

/-!
The body of a class beside its sections as they are: line by line behind two blanks, with an empty
line between neighbours.
-/

namespace ElementCompiler.Module

open Attempt Text

/-- The sections line by line behind two blanks, an empty line between neighbours. -/
def indentedBody (sections : List Text) : Text :=
  if sections.isEmpty then [] else join "\n\n" (sections.map indentedLines) ++ "\n"

/-- Nothing but newlines ends a line, and the first line has text. -/
structure IndentsVerbatim (s : Text) : Prop where
  breaks : BreaksAtNewlines s
  start : startsLine s = true

section Body

variable {s : Text} {ss : List Text}

theorem classBody_cons (hne : ss ≠ []) :
    classBody (s :: ss) = indentSection s ++ .char '\n' :: .char '\n' :: classBody ss := by
  obtain ⟨t, ts, rfl⟩ := List.exists_cons_of_ne_nil hne
  simp [classBody, ofString]

theorem indentedBody_cons (hne : ss ≠ []) :
    indentedBody (s :: ss) = indentedLines s ++ .char '\n' :: .char '\n' :: indentedBody ss := by
  obtain ⟨t, ts, rfl⟩ := List.exists_cons_of_ne_nil hne
  simp [indentedBody, join_cons_cons, ofString]

theorem mem_classBody {c : CodePoint} (h : c ∈ classBody ss) :
    c = '\n' ∨ ∃ s ∈ ss, c ∈ indentSection s := by
  fun_induction classBody ss with
  | case1 => cases h
  | case2 s =>
    rcases List.mem_append.mp h with h | h
    · exact .inr ⟨s, List.mem_cons_self, h⟩
    · exact .inl (List.mem_singleton.mp h)
  | case3 s rest _ ih =>
    rcases List.mem_append.mp h with h | h
    · rcases List.mem_append.mp h with h | h
      · exact .inr ⟨s, List.mem_cons_self, h⟩
      · exact .inl (by simpa [ofString] using h)
    · rcases ih h with hc | ⟨t, ht, hc⟩
      · exact .inl hc
      · exact .inr ⟨t, List.mem_cons_of_mem s ht, hc⟩

theorem mem_indentedBody {c : CodePoint} (hs : s ∈ ss) (hc : c ∈ indentedLines s) : c ∈ indentedBody ss := by
  rw [indentedBody, if_neg (by simpa using List.ne_nil_of_mem hs)]
  exact List.mem_append_left _ (mem_join_of_mem (List.mem_map_of_mem hs) hc)

theorem head?_indentedLines (h : startsLine s = false) (t : Text) :
    (indentedLines s ++ .char '\n' :: t).head? = some (.char '\n') := by
  obtain ⟨first, rest, hlines⟩ := List.exists_cons_of_ne_nil (lines_ne_nil s)
  have hfirst : first = [] := by simpa [h] using startsLine_iff hlines
  rw [indentedLines, hlines, hfirst]
  cases rest <;> rfl

/-- When only newlines end lines, the bodies differ in the blanks before empty first lines. -/
theorem classBody_eq_iff_of_breaks (h : ∀ s ∈ ss, BreaksAtNewlines s) :
    classBody ss = indentedBody ss ↔ ∀ s ∈ ss, startsLine s = true := by
  induction ss with
  | nil => simp [classBody, indentedBody]
  | cons s rest ih =>
    obtain ⟨hs, hrest⟩ := List.forall_mem_cons.mp h
    obtain ⟨tail, tail', hbody, hindented, htails⟩ : ∃ tail tail',
        classBody (s :: rest) = indentSection s ++ .char '\n' :: tail ∧
        indentedBody (s :: rest) = indentedLines s ++ .char '\n' :: tail' ∧
        (tail = tail' ↔ ∀ t ∈ rest, startsLine t = true) := by
      cases hne : rest with
      | nil => exact ⟨[], [], rfl, rfl, by simp⟩
      | cons t ts =>
        rw [hne] at ih hrest
        exact ⟨_, _, classBody_cons (List.cons_ne_nil t ts), indentedBody_cons (List.cons_ne_nil t ts),
          by rw [← ih hrest]; simp⟩
    rw [hbody, hindented, indentSection_of_breaks hs, List.forall_mem_cons, ← htails]
    cases hstart : startsLine s with
    | true => simp
    | false =>
      -- one body begins with a blank, the other with a newline
      refine ⟨fun heq => ?_, fun h => absurd h.1 Bool.false_ne_true⟩
      have hhead := head?_indentedLines hstart tail'
      rw [← heq] at hhead
      cases hhead

/-- A class body shows its sections as they are exactly when a newline is all that ends a line of them,
    and none begins with an empty line. -/
theorem classBody_eq_iff (ss : List Text) :
    classBody ss = indentedBody ss ↔ ∀ s ∈ ss, IndentsVerbatim s := by
  constructor
  · intro h
    have hbreaks : ∀ s ∈ ss, BreaksAtNewlines s := by
      intro s hs c hc hend
      by_contra hline
      have hmem : c ∈ classBody ss := h ▸ mem_indentedBody hs (mem_indentedLines hc hline)
      rcases mem_classBody hmem with hc | ⟨t, _, hc⟩
      · exact hline hc
      · exact hline (breaksAtNewlines_indentSection t c hc hend)
    exact fun s hs => ⟨hbreaks s hs, (classBody_eq_iff_of_breaks hbreaks).mp h s hs⟩
  · exact fun h => (classBody_eq_iff_of_breaks fun s hs => (h s hs).breaks).mpr fun s hs => (h s hs).start

end Body

section Compiled

variable {o : CompileOptions} {c : Component}

/-- The sections of a module have text. -/
theorem sections_ne_nil {p : SectionParts} {ss : List Text} (h : sections c p = .ok ss) : ∀ s ∈ ss, s ≠ [] := by
  obtain ⟨_, _, _, _, _, _, _, _, _, _, _, _, _, _, rfl⟩ := sections_eq_ok.mp h
  rw [← List.filter_append, ← List.filter_append]
  intro s hs
  simpa using (List.mem_filter.mp hs).2

/-- The class of a compiled component shows the code in it as it is but for the blanks before its lines,
    exactly when a newline is all that ends a line of its sections, and none begins with an empty
    line. -/
theorem class_body_verbatim_iff (hplugins : o.plugins = some .empty)
    (hformat : o.format.isGiven = false) (hgiven : o.suppressed.isGiven = false) {compiled : Compiled}
    (h : compile o c = .ok compiled) : ∃ a, build o .empty c = .ok a ∧
      compiled.text = header a.parts ++ decorators a.parts ++ "export class " ++ a.parts.name ++ " \x7b\n" ++
        classBody a.parts.sections ++ "\x7d\n" ∧
      (∀ s ∈ a.parts.sections, s ≠ []) ∧
      (classBody a.parts.sections = indentedBody a.parts.sections ↔
        ∀ s ∈ a.parts.sections, IndentsVerbatim s) := by
  obtain ⟨_, a, log, hbuild, hfinish⟩ := compile_eq_ok hplugins hgiven h
  rw [finish_unformatted hformat] at hfinish
  obtain ⟨_, c', _, p, hbuilds⟩ := exists_buildsModule hbuild
  exact ⟨a, hbuild, (congrArg Prod.fst (Except.ok.inj hfinish)).symm, sections_ne_nil hbuilds.sections,
    classBody_eq_iff _⟩

def pager (code : Text) : Component where
  name := .str "Pager"
  children := []
  state := [("title", ⟨.str code, .method⟩)]
  props := []
  propsTypeRef := .null
  defaultProps := []
  refs := []
  hooks := ⟨none, none, [], none⟩
  context := ⟨[], []⟩
  imports := []
  exports := []
  metadata := []
  types := []
  css := .null

/-- The module of a component with a single section, from a run of the compiler. -/
theorem exists_section_pager (code : Text)
    (hcompiled : (compile unformatted (pager code)).toOption.isSome = true)
    (hbuilt : ((build unformatted .empty (pager code)).toOption.map fun a => a.parts.sections) = some [code]) :
    ∃ (compiled : Compiled) (a : Assembled), compile unformatted (pager code) = .ok compiled ∧
      build unformatted .empty (pager code) = .ok a ∧ a.parts.sections = [code] := by
  cases hrun : compile unformatted (pager code) with
  | error fault => rw [hrun] at hcompiled; cases hcompiled
  | ok compiled =>
    cases hbuild : build unformatted .empty (pager code) with
    | error fault => rw [hbuild] at hbuilt; cases hbuilt
    | ok a =>
      rw [hbuild] at hbuilt
      exact ⟨compiled, a, rfl, rfl, Option.some.inj hbuilt⟩

theorem class_body_verbatim_iff_pager : ∃ (compiled : Compiled) (a : Assembled),
    compile unformatted (pager "title() \x7b\n\n  return 1;\n\x7d") = .ok compiled ∧
      build unformatted .empty (pager "title() \x7b\n\n  return 1;\n\x7d") = .ok a ∧
      classBody a.parts.sections = "  title() \x7b\n\n    return 1;\n  \x7d\n" := by
  obtain ⟨compiled, a, hcompiled, hbuild, hsections⟩ := exists_section_pager
    "title() \x7b\n\n  return 1;\n\x7d" (by decide) (by decide +kernel)
  obtain ⟨a', hbuild', _, _, hiff⟩ := class_body_verbatim_iff rfl rfl rfl hcompiled
  obtain rfl := Except.ok.inj (hbuild.symm.trans hbuild')
  rw [hsections] at hiff
  refine ⟨compiled, a, hcompiled, hbuild, ?_⟩
  rw [hsections, hiff.mpr (List.forall_mem_singleton.mpr ⟨by unfold BreaksAtNewlines; decide, by decide⟩)]
  decide +kernel

/-- A line separator in a string literal of a method is written as a newline, which ends the literal. -/
theorem separator_ends_literal : (pager "title() \x7b return \"first\u2028second\"; \x7d").validate = .ok () ∧
    ∃ (compiled : Compiled) (a : Assembled),
      compile unformatted (pager "title() \x7b return \"first\u2028second\"; \x7d") = .ok compiled ∧
      build unformatted .empty (pager "title() \x7b return \"first\u2028second\"; \x7d") = .ok a ∧
      a.parts.sections = ["title() \x7b return \"first\u2028second\"; \x7d"] ∧
      classBody a.parts.sections = "  title() \x7b return \"first\n  second\"; \x7d\n" ∧
      classBody a.parts.sections ≠ indentedBody a.parts.sections := by
  obtain ⟨compiled, a, hcompiled, hbuild, hsections⟩ := exists_section_pager
    "title() \x7b return \"first\u2028second\"; \x7d" (by decide +kernel) (by decide +kernel)
  refine ⟨rfl, compiled, a, hcompiled, hbuild, hsections, ?_⟩
  rw [hsections]
  exact ⟨by decide +kernel, by decide⟩

end Compiled
end ElementCompiler.Module
