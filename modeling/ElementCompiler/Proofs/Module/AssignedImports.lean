import ElementCompiler.Proofs.Import.Classification
import ElementCompiler.Proofs.Module.Imports

set_option autoImplicit false

/-!
The imports and exports that a class shows to its view. Each is a name that the component imports or
exports, and none is shown twice.
-/

namespace ElementCompiler

open Attempt Text

namespace Import

open Json

section Names

variable {t : TextRecord} {records : List TextRecord} {view : Text}

/-- The name is one that the record binds, as it is read. -/
def TextRecord.BindsName (t : TextRecord) (name : Text) : Prop :=
  ∃ e ∈ t.imports, name = joined e.1

theorem mem_keys_readImports {k : Key} (h : k ∈ Entries.keys t.readImports) :
    ∃ name, k = .text name ∧ t.BindsName name := by
  rcases mem_keys_putAll h with hk | ⟨f, hf, rfl⟩
  · exact absurd hk List.not_mem_nil
  · obtain ⟨field, hfield, rfl⟩ := List.mem_map.mp hf
    obtain ⟨e, he, rfl⟩ := List.mem_map.mp hfield
    exact ⟨_, rfl, e, he, rfl⟩

/-- The fields that a class has for imports are named once each, by a name that an import binds or
    by one of those that are asked for. -/
theorem classFields_texts {extra : List Text} {found : Classification}
    (h : classify (records.map TextRecord.readBack) view (extra.map .text) = .ok found) :
    ∃ fields : List Text, found.classFields = fields.map .text ∧ fields.Nodup ∧
      ∀ name ∈ fields, name ∈ extra ∨ ∃ t ∈ records, t.BindsName name := by
  obtain ⟨-, rfl⟩ := classify_iff.mp h
  refine ⟨_, rfl, (nodup_eraseDups _).filter _, fun name hname => ?_⟩
  have hfield := List.mem_eraseDups.mp (List.mem_of_mem_filter hname)
  refine (mem_fieldNames.mp hfield).imp_right fun ⟨r, hr, _, hbinds, _⟩ => ?_
  obtain ⟨t, ht, rfl⟩ := List.mem_map.mp hr
  obtain ⟨s, hs, hname⟩ := mem_keys_readImports hbinds
  exact ⟨t, ht, Key.text.inj hs ▸ hname⟩

end Names
end Import

namespace Component

/-- The local names of the imports. -/
def importedNames (c : Component) : List Text :=
  (c.imports.flatMap fun d => Entries.keys d.imports).filterMap Key.text?

theorem usedImports_subset {tags found names : List Text} {codes : List Json} {keys : List Key}
    (h : usedImports tags codes found keys = .ok names) :
    ∀ name ∈ names, name ∈ found ∨ name ∈ keys.filterMap Key.text? := by
  induction keys generalizing found with
  | nil =>
    obtain rfl := Except.ok.inj h
    exact fun name hname => .inl hname
  | cons key keys ih =>
    cases key with
    | text s =>
      have hlater : ∀ name, name ∈ keys.filterMap Key.text? →
          name ∈ (Key.text s :: keys).filterMap Key.text? := fun name hname =>
        List.mem_cons_of_mem s hname
      rw [usedImports] at h
      split at h
      next => exact fun name hname => (ih h name hname).imp_right (hlater name)
      next =>
        obtain ⟨used, _, h⟩ := bind_eq_ok.mp h
        split at h
        next =>
          intro name hname
          rcases ih h name hname with hname | hname
          · refine (List.mem_append.mp hname).imp_right fun hname => ?_
            obtain rfl := List.mem_singleton.mp hname
            exact List.mem_cons_self
          · exact .inr (hlater name hname)
        next => exact fun name hname => (ih h name hname).imp_right (hlater name)
    | _ => cases h

theorem customImports_subset {c : Component} {names : List Text} (h : c.customImports = .ok names) :
    ∀ name ∈ names, name ∈ c.importedNames := by
  obtain ⟨codes, _, h⟩ := bind_eq_ok.mp h
  obtain ⟨tags, _, h⟩ := bind_eq_ok.mp h
  exact fun name hname => (usedImports_subset h name hname).resolve_left List.not_mem_nil

theorem localExportNames_subset (c : Component) :
    ∀ name ∈ c.localExportNames, name ∈ Entries.keys c.exports := by
  intro name hname
  obtain ⟨e, he, rfl⟩ := List.mem_map.mp hname
  exact List.mem_map_of_mem (List.mem_of_mem_filter he)

end Component

namespace Module

open Import

variable {o : CompileOptions} {c : Component}

/-- The names that a class shows to its view, when each imported name is read as it is: each once, and
    each a name that the component imports or exports. -/
theorem assignedImports_texts (himporter : o.importMapper = none) (hc : ResolvesTexts c)
    (hnames : ∀ name ∈ c.importedNames, Json.joined name = name) {channel : Channel}
    (hchannel : importChannel o c = .ok channel) {extra : List Text}
    (hextra : c.customImports = .ok extra) {view : Text} {found : Classification}
    (hfound : classify channel.records view ((extra ++ c.localExportNames).map .text) = .ok found) :
    ∃ fields : List Text, found.classFields = fields.map .text ∧ fields.Nodup ∧
      ∀ name ∈ fields, name ∈ c.importedNames ∨ name ∈ Entries.keys c.exports := by
  have hmapper : (importSettings o).mapper = some structuredMapper := by
    rw [importSettings, himporter]
    rfl
  obtain ⟨used, _, hparsed⟩ := bind_eq_ok.mp hchannel
  obtain ⟨records, exports, hrecords, _, hparse⟩ := exists_channel hc hmapper used
  obtain rfl := Except.ok.inj (hparse.symm.trans hparsed)
  rw [records_readBack] at hfound
  obtain ⟨fields, hfields, hnodup, hmem⟩ := classFields_texts hfound
  refine ⟨fields, hfields, hnodup, fun name hname => ?_⟩
  rcases hmem name hname with hname | ⟨t, ht, e, he, rfl⟩
  · exact (List.mem_append.mp hname).imp (Component.customImports_subset hextra name)
      (c.localExportNames_subset name)
  · obtain ⟨d, hd, hdescribes⟩ := exists_left hrecords t ht
    have hkey : Key.text e.1 ∈ Entries.keys d.imports := by
      rw [hdescribes.imports]
      exact List.mem_map_of_mem (List.mem_map_of_mem he)
    have himported : e.1 ∈ c.importedNames := List.mem_filterMap.mpr
      ⟨_, List.mem_flatMap.mpr ⟨d, List.mem_of_mem_filter hd, hkey⟩, rfl⟩
    rw [hnames e.1 himported]
    exact .inl himported

end Module
end ElementCompiler
