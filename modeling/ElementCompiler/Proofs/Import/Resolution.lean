import ElementCompiler.Import.Classification
import ElementCompiler.Proofs.Component.Texts
import ElementCompiler.Proofs.Import.Channel
import ElementCompiler.Proofs.Import.Statement

set_option autoImplicit false

/-!
Declared imports without the marker are put on the channel as records without it, so that the
channel that a component is resolved to is always read.
-/

namespace ElementCompiler.Import

open Attempt Text

def AreClear (imports : Entries Text) : Prop :=
  ∀ e ∈ imports, e.1 ≠ [] ∧ IsClear e.1 ∧ IsClear e.2

/-- A declared import of texts: from a path that is given, under names that are given, and nowhere
    with the marker. -/
structure DeclaresTexts (d : DeclaredImport) (path : Text) (imports : Entries Text) : Prop where
  pathText : d.path = .str path
  importsText : d.imports = importMap imports
  pathClear : IsClear path
  importsClear : AreClear imports

/-- Whether an import is resolved at all: those of component sources can be left out. -/
def isKept (keepComponents : Bool) (d : DeclaredImport) : Bool :=
  keepComponents || match isComponentSource d.path with
    | .ok source => !source
    | .error _ => true

section Resolution

variable {c : Component} {d : DeclaredImport} {path : Text} {imports : Entries Text}

theorem DeclaresTexts.exists_describes (h : DeclaresTexts d path imports) (keepExtensions : Bool) :
    ∃ t, Describes keepExtensions d t ∧ (Output.record t).IsClear := by
  obtain ⟨t, ht, hne, hclear⟩ := Import.exists_describes composes_isClear h.importsClear h.importsText
    h.pathText h.pathClear keepExtensions
  exact ⟨t, ht, hne, hclear⟩

/-- An import that is kept is put on the channel as the record that describes it. -/
theorem resolveOne_eq (h : DeclaresTexts d path imports) {s : Settings}
    (hs : s.mapper = some structuredMapper) {t : TextRecord} (ht : Describes s.keepExtensions d t)
    (used : List Text) : resolveOne s c used d =
      .ok (if isKept s.keepComponentImports d then some (Output.record t).text else none) := by
  have hmapper : structuredMapper c d t.statement used (.str t.path) =
      .ok (Output.record t).text := by
    rw [structuredMapper, ht.name, ht.imports]
    change Except.ok (RecordDraft.encode ⟨.str t.name, .str t.path, .str [], t.statement, _⟩) = _
    rw [← ht.template]
    rfl
  have hrecord : (transformPath d.path s.keepExtensions >>= fun path =>
      statement d.imports path >>= fun statement =>
        structuredMapper c d statement used path >>= fun text => .ok (some text)) =
      .ok (some (Output.record t).text) := by
    rw [ht.path, ok_bind, ht.statement, ok_bind, hmapper]
    rfl
  have hsource : isComponentSource d.path = .ok (occursIn ".lite" path) := by
    rw [h.pathText]
    rfl
  rw [resolveOne, hs, isKept, hsource]
  cases s.keepComponentImports with
  | true => exact hrecord
  | false =>
    change (if occursIn ".lite" path = true then _ else _) = _
    cases occursIn ".lite" path with
    | true => rfl
    | false => exact hrecord

/-- What is asked of imports and exports, so that the channel is read. -/
structure ResolvesTexts (c : Component) : Prop where
  imports : ∀ d ∈ c.imports, ∃ path imports, DeclaresTexts d path imports
  exports : ∀ e ∈ c.exports, ∃ code, e.2.code = .str code ∧ IsClear code

theorem exists_exportsCode (h : ResolvesTexts c) : ∃ s, exportsCode c = .ok s ∧ IsClear s := by
  have hlocal : ∀ e ∈ c.exports.filter fun e =>
      !(c.imports.flatMap fun d => Entries.keys d.imports).contains (.text e.1),
      ∃ code, e.2.code.textOr .wrongKind = .ok code ∧ IsClear code := by
    intro e he
    obtain ⟨code, hcode, hclear⟩ := h.exports e (List.mem_of_mem_filter he)
    exact ⟨code, by rw [hcode]; rfl, hclear⟩
  obtain ⟨codes, hcodes, hclear⟩ := exists_mapM_forall hlocal
  refine ⟨join "\n" codes, ?_, composes_isClear.join (by decide) rfl rfl hclear⟩
  rw [exportsCode, hcodes]
  rfl

theorem entriesAfter_records (read : TextRecord → ImportRecord) (records : List TextRecord) :
    entriesAfter read [] (records.map Output.record) = records.map fun t => .record (read t) := by
  induction records with
  | nil => rfl
  | cons t records ih =>
    rw [List.map_cons, entriesAfter, ih]
    rfl

theorem openFlats_records (records : List TextRecord) :
    openFlats [] (records.map Output.record) = [] := by
  induction records with
  | nil => rfl
  | cons t records ih => exact ih

theorem exists_pieces {s : Settings} (hs : s.mapper = some structuredMapper) (used : List Text)
    {ds : List DeclaredImport} (hds : ∀ d ∈ ds, ∃ path imports, DeclaresTexts d path imports) :
    ∃ pieces records, ds.mapM (resolveOne s c used) = .ok pieces ∧
      List.Forall₂ (Describes s.keepExtensions) (ds.filter (isKept s.keepComponentImports)) records ∧
      pieces.filterMap id = (records.map Output.record).map Output.text ∧
      ∀ t ∈ records, (Output.record t).IsClear := by
  induction ds with
  | nil => exact ⟨[], [], rfl, .nil, rfl, fun t ht => absurd ht List.not_mem_nil⟩
  | cons d ds ih =>
    obtain ⟨hd, hrest⟩ := List.forall_mem_cons.mp hds
    obtain ⟨path, imports, hd⟩ := hd
    obtain ⟨t, ht, hclear⟩ := hd.exists_describes s.keepExtensions
    obtain ⟨pieces, records, hpieces, hrecords, htexts, hclears⟩ := ih hrest
    have hall : (d :: ds).mapM (resolveOne s c used) =
        .ok ((if isKept s.keepComponentImports d then some (Output.record t).text else none) ::
          pieces) := by
      rw [List.mapM_cons, resolveOne_eq hd hs ht used, ok_bind, hpieces]
      rfl
    by_cases hkept : isKept s.keepComponentImports d = true
    · refine ⟨_, t :: records, hall, ?_, ?_, List.forall_mem_cons.mpr ⟨hclear, hclears⟩⟩
      · rw [List.filter_cons_of_pos hkept]
        exact .cons ht hrecords
      · rw [if_pos hkept]
        exact congrArg ((Output.record t).text :: ·) htexts
    · refine ⟨_, records, hall, ?_, ?_, hclears⟩
      · rwa [List.filter_cons_of_neg hkept]
      · rw [if_neg hkept]
        exact htexts

/-- The channel of imports that are records is read: an entry for each import that is kept, in their
    order, and the code of the exports. -/
theorem exists_channel (h : ResolvesTexts c) {s : Settings} (hs : s.mapper = some structuredMapper)
    (used : List Text) : ∃ records exports,
      List.Forall₂ (Describes s.keepExtensions)
        (c.imports.filter (isKept s.keepComponentImports)) records ∧
      exportsCode c = .ok exports ∧
      (resolve s c used >>= Channel.parse) =
        .ok ⟨records.map fun t => .record t.readBack, trim exports⟩ := by
  obtain ⟨pieces, records, hpieces, hrecords, htexts, hclear⟩ :=
    exists_pieces (c := c) hs used h.imports
  obtain ⟨exports, hexports, hexportsClear⟩ := exists_exportsCode h
  have houtputs : ∀ o ∈ records.map Output.record, o.IsClear := by
    intro o ho
    obtain ⟨t, ht, rfl⟩ := List.mem_map.mp ho
    exact hclear t ht
  have hends : ∀ s ∈ (if exports.isEmpty then [] else [exports]), IsClear s := by
    intro s hs
    split at hs
    next => exact absurd hs List.not_mem_nil
    next => rwa [List.mem_singleton.mp hs]
  have htrim : trim (join "\n" (if exports.isEmpty then [] else [exports])) = trim exports := by
    cases exports <;> rfl
  have hparse := parse_outputs _ houtputs _ hends
  rw [entriesAfter_records, openFlats_records, List.nil_append, htrim] at hparse
  refine ⟨records, exports, hrecords, hexports, ?_⟩
  rw [resolve, hpieces, ok_bind, hexports, ok_bind, htexts]
  exact hparse

theorem records_readBack (records : List TextRecord) (localExports : Text) :
    (Channel.mk (records.map fun t => .record t.readBack) localExports).records =
      records.map TextRecord.readBack := by
  rw [Channel.records, List.filterMap_map, ← List.filterMap_eq_map]
  rfl

end Resolution
section Classification

theorem mem_keys_putAll {fields : Entries Json} {done : Entries Json Key} {k : Key}
    (h : k ∈ Entries.keys (Json.putAll done fields)) :
    k ∈ Entries.keys done ∨ ∃ f ∈ fields, k = .text (Json.joined f.1) := by
  induction fields generalizing done with
  | nil => exact .inl h
  | cons f fields ih =>
    rcases ih h with hk | ⟨g, hg, hk⟩
    · exact (Entries.mem_keys_put hk).imp_right fun hk => ⟨f, List.mem_cons_self, hk⟩
    · exact .inr ⟨g, List.mem_cons_of_mem f hg, hk⟩

/-- Records that were read from records of texts can be looked for in the view. -/
theorem exists_classify {records : List ImportRecord}
    (h : ∀ r ∈ records, ∃ t : TextRecord, r = t.readBack) (view : Text) (extra : List Key) :
    ∃ classification, classify records view extra = .ok classification := by
  have hused : ∀ r ∈ records.filter fun r => !r.isCustomElement view,
      ∃ names, usedNames view r = .ok names := by
    intro r hr
    obtain ⟨t, rfl⟩ := h r (List.mem_of_mem_filter hr)
    have hkeys : ∀ k ∈ Entries.keys t.readBack.imports, ∃ s, k = .text s := fun k hk => by
      obtain ⟨f, _, hk⟩ := (mem_keys_putAll hk).resolve_left List.not_mem_nil
      exact ⟨_, hk⟩
    refine exists_bind (exists_mapM fun k hk => ?_) fun names _ => ⟨_, rfl⟩
    obtain ⟨s, rfl⟩ := hkeys k hk
    exact ⟨s, rfl⟩
  exact exists_bind (exists_mapM hused) fun used _ => ⟨_, rfl⟩

end Classification
end ElementCompiler.Import
