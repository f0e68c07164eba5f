import ElementCompiler.Proofs.Component.Names
import ElementCompiler.Proofs.Component.NullWord
import ElementCompiler.Proofs.Import.Binding
import ElementCompiler.Proofs.Module.AssignedImports

set_option autoImplicit false

/-!
Names and imports of a component that shows no missing value. Each name that it uses stands in one of its
texts. Clauses and paths are set off by blanks, marks and quotes, and reading a record back only joins
halves of pairs, so the statements and tags of imports have the word of a missing value only if a path, a
name or a kind has it.
-/

namespace ElementCompiler

open Attempt

namespace Component

variable {c : Component}

end Component

open Text

namespace Json

end Json

namespace Import

section Statements

theorem dropSuffix_nullFree {path : Text} (h : NullFree path) : NullFree (dropSuffix path) := by
  obtain ⟨start, rest, hpath, hdrop⟩ := dropSuffix_begins path
  rw [hpath] at h
  have hstart : NullFree start := h.of_within (List.prefix_append start rest).isInfix
  rcases hdrop with hdrop | hdrop
  · rwa [hdrop]
  · rw [hdrop]
    exact .before (m := "\n") (by decide) hstart

theorem transformPath_nullFree {path : Text} (h : NullFree path) {keepExtensions : Bool} {target : Json}
    (htarget : transformPath (.str path) keepExtensions = .ok target) : target.NullFree := by
  rw [transformPath] at htarget
  split at htarget
  next => exact Except.ok.inj htarget ▸ Json.nullFree_str.mpr h
  next =>
    obtain ⟨source, _, htarget⟩ := bind_eq_ok.mp htarget
    split at htarget
    next => exact Except.ok.inj htarget ▸ Json.nullFree_str.mpr (dropSuffix_nullFree h)
    next => exact Except.ok.inj htarget ▸ Json.nullFree_str.mpr h

variable {imports : Entries Text} (himports : AreGiven NullFree imports)
include himports

theorem namedClause_nullFree {e : Key × Json} (he : e ∈ importMap imports) {clause : Text}
    (h : namedClause e.1 e.2 = .ok clause) : NullFree clause := by
  obtain ⟨⟨name, kind⟩, hmem, rfl⟩ := List.mem_map.mp he
  obtain ⟨_, hname, hkind⟩ := himports _ hmem
  rw [namedClause] at h
  split at h
  next => exact Except.ok.inj h ▸ hkind
  next => exact Except.ok.inj h ▸ .around (m := " as ") (by decide) hkind hname

theorem namedClauses_nullFree {named : List Text} (h : namedClauses (importMap imports) = .ok named) :
    ∀ clause ∈ named, NullFree clause := by
  obtain ⟨clauses, hclauses, h⟩ := bind_eq_ok.mp h
  obtain rfl := Except.ok.inj h
  have hfree : ∀ clause ∈ clauses, NullFree clause := fun clause hclause => by
    obtain ⟨e, he, hstep⟩ := exists_left (mapM_eq_ok.mp hclauses) clause hclause
    exact namedClause_nullFree himports (List.mem_of_mem_filter he) hstep
  split
  · exact nofun
  · refine List.forall_mem_singleton.mpr ?_
    exact .before (m := " \x7d") (by decide) (.behind (m := "\x7b ") (by decide) (.join (by decide) hfree))

theorem clauses_nullFree {cs : List Text} (h : clauses (importMap imports) = .ok cs) :
    ∀ clause ∈ cs, NullFree clause := by
  obtain ⟨defaults, stars, named, rfl, hdefaults, rfl, hnamed⟩ := clauses_eq_ok h
  rw [List.forall_mem_append, List.forall_mem_append]
  refine ⟨⟨fun clause hclause => ?_, fun clause hclause => ?_⟩, namedClauses_nullFree himports hnamed⟩
  · obtain ⟨key, hkey, hstep⟩ := exists_left (mapM_eq_ok.mp hdefaults) clause hclause
    obtain ⟨name, rfl, _, hname⟩ := key_of_mem_importMap himports hkey
    exact Except.ok.inj hstep ▸ hname
  · obtain ⟨key, hkey, rfl⟩ := List.mem_map.mp hclause
    obtain ⟨name, rfl, _, hname⟩ := key_of_mem_importMap himports hkey
    exact .behind (m := "* as ") (by decide) hname

theorem statement_nullFree {target s : Text} (htarget : NullFree target)
    (h : statement (importMap imports) (.str target) = .ok s) : NullFree s := by
  obtain ⟨cs, hcs, h⟩ := bind_eq_ok.mp h
  split at h
  next =>
    obtain rfl := Except.ok.inj h
    exact .before (m := "';") (by decide) (.behind (m := "import '") (by decide) htarget)
  next =>
    obtain rfl := Except.ok.inj h
    have hclauses : NullFree (join ", " cs) := .join (by decide) (clauses_nullFree himports hcs)
    exact .before (m := "';") (by decide)
      (.around (m := " from '") (by decide) (.behind (m := "import ") (by decide) hclauses) htarget)

end Statements

section Records

/-- What a module shows of a record has no word of a missing value; its canonical name is not shown. -/
structure TextRecord.NullFree (t : TextRecord) : Prop where
  path : Text.NullFree t.path
  statement : Text.NullFree t.statement
  template : t.template = []
  names : ∀ e ∈ t.imports, Text.NullFree e.1

variable {keepExtensions : Bool} {d : DeclaredImport} {t : TextRecord} {records : List TextRecord} {view : Text}

theorem Describes.nullFree (h : Describes keepExtensions d t) {path : Text} {imports : Entries Text}
    (hd : DeclaresTexts d path imports) (hpath : d.path.NullFree)
    (himports : ∀ e ∈ d.imports, (Json.ofKey e.1).NullFree ∧ e.2.NullFree) : t.NullFree := by
  have hgiven : AreGiven Text.NullFree t.imports := fun e he => by
    have hmem : (Key.text e.1, Json.str e.2) ∈ d.imports := h.imports ▸ List.mem_map_of_mem he
    obtain rfl := importMap_injective (h.imports.symm.trans hd.importsText)
    obtain ⟨hname, hkind⟩ := himports _ hmem
    exact ⟨(hd.importsClear e he).1, Json.nullFree_str.mp hname, Json.nullFree_str.mp hkind⟩
  have htarget := h.path
  rw [hd.pathText] at htarget hpath
  have hfree := Json.nullFree_str.mp (transformPath_nullFree (Json.nullFree_str.mp hpath) htarget)
  have hstatement := h.statement
  rw [h.imports] at hstatement
  exact ⟨hfree, statement_nullFree hgiven hfree hstatement, h.template, fun e he => (hgiven e he).2.1⟩

variable (h : ∀ t ∈ records, t.NullFree)
include h

end Records
end Import

namespace Module

open Import

variable {o : CompileOptions} {c : Component}

end Module
end ElementCompiler
