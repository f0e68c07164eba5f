import ElementCompiler.Import.Resolution
import ElementCompiler.Proofs.Attempt
import ElementCompiler.Proofs.Import.Record
import ElementCompiler.Proofs.Json.WellPaired
import Mathlib.Data.List.Chain

set_option autoImplicit false

/-!
The path, the statement and the canonical name of a declared import. They are put together from the
texts of the import and characters of code, so they have every property that such texts keep when
they are put together: to be without the marker, to have no pair of halves.
-/

namespace ElementCompiler.Import

open Attempt Text

def IsClear (s : Text) : Prop := occursIn marker s = false

section Clear

theorem isClear_nil : IsClear [] := by unfold IsClear; decide

theorem isClear_append {a b : Text} {c : CodePoint} (hc : c ∉ marker) (ha : IsClear a)
    (hb : IsClear b) : IsClear (a ++ c :: b) := by
  rw [IsClear, occursIn_append_cons marker_ne_nil hc, ha, hb]
  rfl

theorem isClear_prepend {a b : Text} (ha : .char '/' ∉ a) (hb : IsClear b) : IsClear (a ++ b) := by
  rw [IsClear, occursIn_marker_append ha]
  exact hb

theorem isClear_left {a b : Text} (h : IsClear (a ++ b)) : IsClear a := by
  induction a with
  | nil => exact isClear_nil
  | cons c cs ih =>
    rw [List.cons_append, IsClear, occursIn, Bool.or_eq_false_iff] at h
    rw [IsClear, occursIn, Bool.or_eq_false_iff]
    refine ⟨?_, ih h.2⟩
    by_contra hstart
    rw [Bool.not_eq_false, startsWith, Option.isSome_iff_exists] at hstart
    obtain ⟨rest, hrest⟩ := hstart
    have happend : c :: (cs ++ b) = marker ++ (rest ++ b) := by
      rw [← List.cons_append, eq_append_of_after? hrest, List.append_assoc]
    rw [happend, startsWith_append] at h
    cases h.1

end Clear

/-- A character that may stand anywhere in code without beginning the marker or a pair. -/
def isCode (c : CodePoint) : Bool := c != .char '/' && !c.isHalf

/-- A property that texts keep when characters of code are put between and before them, and when
    their end is cut off. -/
structure Composes (P : Text → Prop) : Prop where
  nil : P []
  append : ∀ {a b : Text} {c : CodePoint}, c ∉ marker → c.isHalf = false → P a → P b →
    P (a ++ c :: b)
  prepend : ∀ {a b : Text}, a.all isCode = true → P b → P (a ++ b)
  left : ∀ {a b : Text}, P (a ++ b) → P a

theorem composes_isClear : Composes IsClear where
  nil := isClear_nil
  append hc _ := isClear_append hc
  prepend ha := by
    refine isClear_prepend fun hslash => ?_
    exact absurd (List.all_eq_true.mp ha _ hslash) (by decide)
  left := isClear_left

namespace Composes

variable {P : Text → Prop} (hP : Composes P)
include hP

theorem code {s : Text} (hs : s.all isCode = true) : P s := by
  have happend := hP.prepend hs hP.nil
  rwa [List.append_nil] at happend

/-- Between texts with the property, what stands between them does not take it away. -/
theorem glue {a b : Text} {c : CodePoint} (gap : Text) (hc : c ∉ marker) (hhalf : c.isHalf = false)
    (hgap : gap.all isCode = true) (ha : P a) (hb : P b) : P (a ++ c :: gap ++ b) := by
  rw [List.append_assoc, List.cons_append]
  exact hP.append hc hhalf ha (hP.prepend hgap hb)

theorem join {gap : Text} {c : CodePoint} (hc : c ∉ marker) (hhalf : c.isHalf = false)
    (hgap : gap.all isCode = true) {texts : List Text} (h : ∀ t ∈ texts, P t) :
    P (Text.join (c :: gap) texts) := by
  match texts with
  | [] => exact hP.nil
  | [s] => exact h s List.mem_cons_self
  | s :: t :: rest =>
    obtain ⟨hs, hrest⟩ := List.forall_mem_cons.mp h
    exact hP.glue gap hc hhalf hgap hs (join hc hhalf hgap hrest)

end Composes

theorem atEnd_afterSuffix? {s rest : Text} (h : afterSuffix? s = some rest) :
    rest = [] ∨ rest = "\n" := by
  have hend : ∀ {t : Text}, atEnd t = true → t = [] ∨ t = "\n" := by
    intro t ht
    rw [atEnd, Bool.or_eq_true, List.isEmpty_iff, beq_iff_eq] at ht
    exact ht
  rw [afterSuffix?] at h
  obtain ⟨tail, _, h⟩ := Option.bind_eq_some_iff.mp h
  split at h
  next =>
    dsimp only at h
    split at h
    next htail =>
      obtain rfl := Option.some.inj h
      rw [Bool.and_eq_true] at htail
      exact hend htail.2
    next => cases h
  next =>
    split at h
    next htail =>
      obtain rfl := Option.some.inj h
      exact hend htail
    next => cases h

/-- Dropping a suffix leaves a beginning of the path, perhaps with a newline behind it. -/
theorem dropSuffix_begins (path : Text) :
    ∃ start rest, path = start ++ rest ∧ (dropSuffix path = start ∨ dropSuffix path = start ++ "\n") := by
  induction path with
  | nil => exact ⟨[], [], rfl, .inl rfl⟩
  | cons c cs ih =>
    rw [dropSuffix]
    split
    next rest hrest =>
      rcases atEnd_afterSuffix? hrest with rfl | rfl
      · exact ⟨[], c :: cs, rfl, .inl rfl⟩
      · exact ⟨[], c :: cs, rfl, .inr rfl⟩
    next =>
      obtain ⟨start, rest, hpath, hdrop⟩ := ih
      refine ⟨c :: start, rest, by rw [hpath]; rfl, ?_⟩
      rcases hdrop with hdrop | hdrop
      · exact .inl (by rw [hdrop])
      · exact .inr (by rw [hdrop]; rfl)

theorem all_isCode_underscored (inRun : Bool) (s : Text) :
    (underscored inRun s).all isCode = true := by
  induction s generalizing inRun with
  | nil => rfl
  | cons c cs ih =>
    rw [underscored]
    split
    next hword =>
      have hc : isCode c = true := by
        rw [isCode, Bool.and_eq_true, bne_iff_ne]
        refine ⟨?_, ?_⟩
        · rintro rfl
          exact absurd hword (by decide)
        · cases c with
          | char c => rfl
          | half n => cases hword
      rw [List.all_cons, hc, ih false]
      rfl
    next =>
      split
      next => exact ih true
      next => exact ih true

/-- Imports under names that are given, all of whose texts have a property. -/
def AreGiven (P : Text → Prop) (imports : Entries Text) : Prop :=
  ∀ e ∈ imports, e.1 ≠ [] ∧ P e.1 ∧ P e.2

/-- An import as a record: its canonical name, the path that it is imported from, its statement. -/
structure Describes (keepExtensions : Bool) (d : DeclaredImport) (t : TextRecord) : Prop where
  path : transformPath d.path keepExtensions = .ok (.str t.path)
  name : canonicalName d (.str t.path) = .ok (.str t.name)
  statement : statement d.imports (.str t.path) = .ok t.statement
  template : t.template = []
  imports : d.imports = importMap t.imports

section Statements

variable {P : Text → Prop} (hP : Composes P)
include hP

theorem exists_transformPath {path : Text} (h : P path) (keepExtensions : Bool) :
    ∃ target, transformPath (.str path) keepExtensions = .ok (.str target) ∧ P target := by
  have hdropped : P (dropSuffix path) := by
    obtain ⟨start, rest, hpath, hdrop⟩ := dropSuffix_begins path
    rw [hpath] at h
    rcases hdrop with hdrop | hdrop
    · rw [hdrop]
      exact hP.left h
    · rw [hdrop]
      exact hP.append (by decide) rfl (hP.left h) hP.nil
  rw [transformPath]
  split
  next => exact ⟨path, rfl, h⟩
  next =>
    change ∃ target, (if occursIn (Text.ofString ".lite") path = true then _ else _) = _ ∧ _
    split
    next => exact ⟨dropSuffix path, rfl, hdropped⟩
    next => exact ⟨path, rfl, h⟩

variable {imports : Entries Text} (himports : AreGiven P imports)
include himports

theorem exists_namedClause {e : Key × Json} (he : e ∈ importMap imports) :
    ∃ clause, namedClause e.1 e.2 = .ok clause ∧ P clause := by
  obtain ⟨⟨name, kind⟩, hmem, rfl⟩ := List.mem_map.mp he
  obtain ⟨_, hname, hkind⟩ := himports _ hmem
  rw [namedClause]
  split
  next => exact ⟨kind, rfl, hkind⟩
  next =>
    have hclause := hP.glue (c := ' ') "as " (by decide) rfl (by decide) hkind hname
    exact ⟨_, rfl, hclause⟩

theorem exists_namedClauses :
    ∃ clauses, namedClauses (importMap imports) = .ok clauses ∧ ∀ c ∈ clauses, P c := by
  have hclauses : ∀ e ∈ (importMap imports).filter fun e => !isDefault e.2 && !isStar e.2,
      ∃ clause, namedClause e.1 e.2 = .ok clause ∧ P clause :=
    fun e he => exists_namedClause hP himports (List.mem_of_mem_filter he)
  obtain ⟨named, hnamed, htexts⟩ := exists_mapM_forall hclauses
  rw [namedClauses, hnamed, ok_bind]
  split
  next => exact ⟨[], rfl, fun c hc => absurd hc List.not_mem_nil⟩
  next =>
    refine ⟨_, rfl, List.forall_mem_singleton.mpr ?_⟩
    have hjoin : P (join (CodePoint.char ',' :: Text.ofString " ") named) :=
      hP.join (by decide) rfl (by decide) htexts
    have hend : P (Text.ofString "\x7d") := hP.code (by decide)
    exact hP.append (c := ' ') (by decide) rfl
      (hP.prepend (a := Text.ofString "\x7b ") (by decide) hjoin) hend

omit hP in
theorem key_of_mem_importMap {p : Key × Json → Bool} {key : Key}
    (h : key ∈ (Entries.keys ((importMap imports).filter p)).take 1) :
    ∃ name, key = .text name ∧ name ≠ [] ∧ P name := by
  obtain ⟨e, he, rfl⟩ := List.mem_map.mp (List.mem_of_mem_take h)
  obtain ⟨⟨name, kind⟩, hmem, rfl⟩ := List.mem_map.mp (List.mem_of_mem_filter he)
  obtain ⟨hne, hname, _⟩ := himports _ hmem
  exact ⟨name, rfl, hne, hname⟩

theorem exists_clauses :
    ∃ cs, clauses (importMap imports) = .ok cs ∧ ∀ c ∈ cs, P c := by
  obtain ⟨named, hnamed, hnamedTexts⟩ := exists_namedClauses hP himports
  have hnames : ∀ key ∈ (Entries.keys ((importMap imports).filter fun e => isDefault e.2)).take 1,
      ∃ name, (Json.ofKey key).textOr .wrongKind = .ok name ∧ P name := by
    intro key hkey
    obtain ⟨name, rfl, _, hname⟩ := key_of_mem_importMap himports hkey
    exact ⟨name, rfl, hname⟩
  obtain ⟨default, hdefault, hdefaultTexts⟩ := exists_mapM_forall hnames
  rw [clauses, hnamed, ok_bind, hdefault, ok_bind]
  refine ⟨_, rfl, ?_⟩
  rw [List.forall_mem_append, List.forall_mem_append]
  refine ⟨⟨hdefaultTexts, fun c hc => ?_⟩, hnamedTexts⟩
  obtain ⟨key, hkey, rfl⟩ := List.mem_map.mp hc
  obtain ⟨name, rfl, _, hname⟩ := key_of_mem_importMap himports hkey
  exact hP.prepend (by decide) hname

theorem exists_statement {target : Text} (htarget : P target) :
    ∃ s, statement (importMap imports) (.str target) = .ok s ∧ P s := by
  have hend : P (Text.ofString ";") := hP.code (by decide)
  have hquoted : P (target ++ "';") := hP.append (c := '\'') (by decide) rfl htarget hend
  obtain ⟨cs, hcs, htexts⟩ := exists_clauses hP himports
  rw [statement, hcs, ok_bind]
  split
  next =>
    refine ⟨_, rfl, ?_⟩
    rw [List.append_assoc]
    exact hP.prepend (by decide) hquoted
  next =>
    have hjoin : P (join ", " cs) := hP.join (by decide) rfl (by decide) htexts
    have hfrom : P (join ", " cs ++ " from '" ++ (target ++ "';")) :=
      hP.glue (c := ' ') "from '" (by decide) rfl (by decide) hjoin hquoted
    refine ⟨_, rfl, ?_⟩
    have hassoc : Text.ofString "import " ++ join ", " cs ++ " from '" ++ target ++ "';" =
        Text.ofString "import " ++ (join ", " cs ++ " from '" ++ (target ++ "';")) := by
      simp only [List.append_assoc]
    change P (Text.ofString "import " ++ join ", " cs ++ " from '" ++ target ++ "';")
    rw [hassoc]
    exact hP.prepend (by decide) hfrom

variable {d : DeclaredImport} (hd : d.imports = importMap imports)
include hd

theorem exists_canonicalName (target : Text) :
    ∃ name, canonicalName d (.str target) = .ok (.str name) ∧ name ≠ [] ∧ P name := by
  have hnames : ∀ key ∈ d.defaultNames ++ Entries.keys d.imports,
      ∃ name, key = .text name ∧ name ≠ [] ∧ P name := by
    intro key hkey
    rw [DeclaredImport.defaultNames, Entries.keys, Entries.keys, hd, List.mem_append,
      List.mem_map, List.mem_map] at hkey
    have hmem : ∃ e ∈ importMap imports, e.1 = key := by
      rcases hkey with ⟨e, he, rfl⟩ | ⟨e, he, rfl⟩
      · exact ⟨e, List.mem_of_mem_filter he, rfl⟩
      · exact ⟨e, he, rfl⟩
    obtain ⟨_, he, rfl⟩ := hmem
    obtain ⟨⟨name, kind⟩, hmem, rfl⟩ := List.mem_map.mp he
    obtain ⟨hne, hname, _⟩ := himports _ hmem
    exact ⟨name, rfl, hne, hname⟩
  rw [canonicalName]
  split
  next key rest hkeys =>
    obtain ⟨name, rfl, hname⟩ := hnames key (by rw [hkeys]; exact List.mem_cons_self)
    exact ⟨name, rfl, hname⟩
  next =>
    have hstem := all_isCode_underscored false (lastPart target)
    rw [Json.textOr_str, ok_bind]
    dsimp only
    by_cases hempty : (underscored false (lastPart target)).isEmpty = true
    · exact ⟨"module", by rw [if_pos hempty]; rfl, by decide, hP.code (by decide)⟩
    · exact ⟨_, by rw [if_neg hempty]; rfl, by simpa using hempty, hP.code hstem⟩

/-- Every import of texts is described by a record of texts that are like its own. -/
theorem exists_describes {path : Text} (hdpath : d.path = .str path) (hpath : P path)
    (keepExtensions : Bool) : ∃ t, Describes keepExtensions d t ∧ t.name ≠ [] ∧
      ∀ s ∈ t.texts, P s := by
  obtain ⟨target, htarget, htargetText⟩ := exists_transformPath hP hpath keepExtensions
  obtain ⟨statement, hstatement, hstatementText⟩ := exists_statement hP himports htargetText
  obtain ⟨name, hname, hne, hnameText⟩ := exists_canonicalName hP himports hd target
  refine ⟨⟨name, target, [], statement, imports⟩, ?_, hne, fun s hs => ?_⟩
  · exact {
      path := by rw [hdpath, htarget]
      name := hname
      statement := by rw [hd, hstatement]
      template := rfl
      imports := hd }
  · rcases List.mem_append.mp hs with hs | hs
    · simp only [List.mem_cons, List.not_mem_nil, or_false] at hs
      rcases hs with rfl | rfl | rfl | rfl
      · exact hnameText
      · exact htargetText
      · exact hP.nil
      · exact hstatementText
    · obtain ⟨e, he, hs⟩ := List.mem_flatMap.mp hs
      obtain ⟨_, hlocal, hkind⟩ := himports e he
      simp only [List.mem_cons, List.not_mem_nil, or_false] at hs
      rcases hs with rfl | rfl
      · exact hlocal
      · exact hkind

end Statements
end ElementCompiler.Import
