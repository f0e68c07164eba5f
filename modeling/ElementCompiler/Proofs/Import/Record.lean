import ElementCompiler.Import.Channel
import ElementCompiler.Proofs.Entries
import ElementCompiler.Proofs.Json.ReadBack
import ElementCompiler.Proofs.Text.Split

set_option autoImplicit false

/-!
Records made of texts, on the channel and back. The line of such a record begins and ends with a
brace, has no newline, and has the marker only where one of its texts has it.
-/

namespace ElementCompiler.Import

open Text Json

theorem marker_ne_nil : marker ≠ [] := by decide

/-- A text that begins like the marker was printed as itself up to where it ends like it. -/
theorem startsWith_printed {pat s : Text} (hback : .char '\\' ∉ pat)
    (h : startsWith pat (s.flatMap (stringPoint true)) = true) : startsWith pat s = true := by
  induction pat generalizing s with
  | nil => cases s <;> rfl
  | cons p ps ih =>
    have hps : .char '\\' ∉ ps := fun hmem => hback (List.mem_cons_of_mem p hmem)
    have hp : p ≠ .char '\\' := by
      rintro rfl
      exact hback List.mem_cons_self
    cases s with
    | nil => simp [startsWith, after?] at h
    | cons c cs =>
      rw [List.flatMap_cons] at h
      rcases (stringPoint_self_or_escape c).2 with hself | ⟨⟨rest, hrest⟩, _⟩
      · by_cases hpc : p = c
        · subst hpc
          have hcs : startsWith ps (cs.flatMap (stringPoint true)) = true := by
            simpa [hself, startsWith, after?] using h
          simpa [startsWith, after?] using ih hps hcs
        · simp [hself, startsWith, after?, hpc] at h
      · simp [hrest, startsWith, after?, hp] at h

theorem occursIn_marker_cons {c : CodePoint} (hc : c ≠ .char '/') (s : Text) :
    occursIn marker (c :: s) = occursIn marker s := by
  have hstart : startsWith marker (c :: s) = false := by
    have hslash : CodePoint.char '/' ≠ c := fun h => hc h.symm
    simp [startsWith, marker, ofString, after?, hslash]
  rw [occursIn, hstart, Bool.false_or]

theorem occursIn_marker_append {a : Text} (ha : .char '/' ∉ a) (s : Text) :
    occursIn marker (a ++ s) = occursIn marker s := by
  induction a with
  | nil => rfl
  | cons c cs ih =>
    have hc : c ≠ .char '/' := by
      rintro rfl
      exact ha List.mem_cons_self
    rw [List.cons_append, occursIn_marker_cons hc, ih fun h => ha (List.mem_cons_of_mem c h)]

theorem occursIn_marker_printed {s : Text} (h : occursIn marker s = false) :
    occursIn marker (s.flatMap (stringPoint true)) = false := by
  induction s with
  | nil => exact h
  | cons c cs ih =>
    rw [occursIn, Bool.or_eq_false_iff] at h
    rcases (stringPoint_self_or_escape c).2 with hself | ⟨_, hslash⟩
    · have hstart : startsWith marker ((c :: cs).flatMap (stringPoint true)) = false := by
        refine Bool.eq_false_iff.mpr fun hs => ?_
        rw [startsWith_printed (by decide) hs] at h
        exact Bool.noConfusion h.1
      rw [List.flatMap_cons, hself, List.singleton_append] at hstart ⊢
      rw [occursIn, hstart, ih h.2, Bool.false_or]
    · rw [List.flatMap_cons, occursIn_marker_append hslash, ih h.2]

/-- A record whose parts are all texts; the kinds of what is imported by local names. -/
structure TextRecord where
  name : Text
  path : Text
  template : Text
  statement : Text
  imports : Entries Text

/-- Local names with their kinds, as a record has them. -/
def importMap (imports : Entries Text) : Entries Json Key :=
  imports.map fun e => (.text e.1, .str e.2)

namespace TextRecord

def record (t : TextRecord) : ImportRecord :=
  ⟨t.name, t.path, t.template, t.statement, importMap t.imports⟩

def line (t : TextRecord) : Text := Json.print .line t.record.draft.toJson

def texts (t : TextRecord) : List Text :=
  [t.name, t.path, t.template, t.statement] ++ t.imports.flatMap fun e => [e.1, e.2]

def importFields (t : TextRecord) : List PrintedField :=
  t.imports.map fun e => ⟨e.1, .str e.2, .str (joined e.2)⟩

def readImports (t : TextRecord) : Entries Json Key :=
  putAll [] (t.importFields.map PrintedField.readField)

def fields (t : TextRecord) : List PrintedField := [
  ⟨"name", .str t.name, .str (joined t.name)⟩, ⟨"path", .str t.path, .str (joined t.path)⟩,
  ⟨"template", .str t.template, .str (joined t.template)⟩,
  ⟨"jsPath", .str t.statement, .str (joined t.statement)⟩,
  ⟨"imports", .obj (t.importFields.map PrintedField.field), .obj t.readImports⟩]

def readBack (t : TextRecord) : ImportRecord :=
  ⟨joined t.name, joined t.path, joined t.template, joined t.statement, t.readImports⟩

theorem toJson_eq (t : TextRecord) :
    t.record.draft.toJson = .obj (t.fields.map PrintedField.field) := by
  simp [record, ImportRecord.draft, RecordDraft.toJson, Json.object, fields, PrintedField.field,
    importFields, importMap, Function.comp_def]

theorem readsBack (t : TextRecord) :
    ReadsBack t.record.draft.toJson (.obj (putAll [] (t.fields.map PrintedField.readField))) := by
  have himports : ∀ f ∈ t.importFields, ReadsBack f.value f.read := by
    intro f hf
    obtain ⟨e, _, rfl⟩ := List.mem_map.mp hf
    exact .str e.2
  rw [toJson_eq]
  refine .obj t.fields ?_
  intro f hf
  simp only [fields, List.mem_cons, List.not_mem_nil, or_false] at hf
  rcases hf with rfl | rfl | rfl | rfl | rfl
  · exact .str t.name
  · exact .str t.path
  · exact .str t.template
  · exact .str t.statement
  · exact .obj t.importFields himports

theorem read_fields (t : TextRecord) : putAll [] (t.fields.map PrintedField.readField) =
    [(.text "name", .str (joined t.name)), (.text "path", .str (joined t.path)),
      (.text "template", .str (joined t.template)), (.text "jsPath", .str (joined t.statement)),
      (.text "imports", .obj t.readImports)] := by
  rfl

/-- Whatever the texts are, the line of a record with a name is the line of a record. -/
theorem ofJson_read (t : TextRecord) (hname : t.name ≠ []) :
    ImportRecord.ofJson (.obj (putAll [] (t.fields.map PrintedField.readField))) = .ok t.readBack := by
  have hgiven : (Json.str (joined t.name)).isGiven = true := by
    simpa [isGiven] using joined_ne_nil hname
  have himports : ((Json.obj t.readImports).orElse (.obj [])).toFields = .ok t.readImports := by
    cases t.readImports with
    | nil => rfl
    | cons e es => rfl
  rw [read_fields]
  change (if (!(Json.str (joined t.name)).isGiven) = true then _ else
    ((Json.obj t.readImports).orElse (.obj [])).toFields >>= fun imports =>
      Except.ok (ImportRecord.mk (joined t.name) (joined t.path) (joined t.template)
        (joined t.statement) imports)) = _
  rw [hgiven, himports]
  rfl

end TextRecord

namespace TextRecord

/-- A property of the closing brace that printing keeps is one of the whole line. -/
theorem line_keeps (t : TextRecord) {p : Text → Prop}
    (hframe : ∀ c ∈ frame, ∀ rest, p rest → p (c :: rest))
    (htexts : ∀ s ∈ t.texts, ∀ rest, p rest → p (s.flatMap (stringPoint true) ++ .char '"' :: rest))
    (hkeys : ∀ s ∈ [ofString "name", "path", "template", "jsPath", "imports"], ∀ rest, p rest →
      p (s.flatMap (stringPoint true) ++ .char '"' :: rest))
    (hclose : p [.char '\x7d']) : p t.line := by
  have himports : ∀ f ∈ t.importFields, Keeps p f.value ∧
      ∀ rest, p rest → p (f.key.flatMap (stringPoint true) ++ .char '"' :: rest) := by
    intro f hf
    obtain ⟨e, he, rfl⟩ := List.mem_map.mp hf
    have hmem : ∀ s ∈ [e.1, e.2], s ∈ t.texts := fun s hs =>
      List.mem_append_right _ (List.mem_flatMap.mpr ⟨e, he, hs⟩)
    exact ⟨fun _ _ => stringText_keeps hframe (htexts _ (hmem e.2 (by simp))),
      htexts _ (hmem e.1 (by simp))⟩
  have hpart : ∀ s ∈ [t.name, t.path, t.template, t.statement], Keeps p (.str s) := fun s hs _ _ =>
    stringText_keeps hframe (htexts s (List.mem_append_left _ hs))
  have hfields : ∀ f ∈ t.fields, Keeps p f.value ∧
      ∀ rest, p rest → p (f.key.flatMap (stringPoint true) ++ .char '"' :: rest) := by
    intro f hf
    simp only [fields, List.mem_cons, List.not_mem_nil, or_false] at hf
    rcases hf with rfl | rfl | rfl | rfl | rfl
    · exact ⟨hpart _ (by simp), hkeys _ (by simp)⟩
    · exact ⟨hpart _ (by simp), hkeys _ (by simp)⟩
    · exact ⟨hpart _ (by simp), hkeys _ (by simp)⟩
    · exact ⟨hpart _ (by simp), hkeys _ (by simp)⟩
    · refine ⟨fun depth rest hrest => ?_, hkeys _ (by simp)⟩
      exact printOnto_obj_keeps hframe _ himports depth (hframe _ (by decide) _ hrest)
  rw [line, toJson_eq]
  exact printOnto_obj_keeps hframe t.fields hfields 0 hclose

theorem line_printed (t : TextRecord) : ∀ c ∈ t.line, IsPrinted c := by
  have hframe : ∀ c ∈ frame, IsPrinted c := by
    unfold IsPrinted
    decide
  have hcons : ∀ c ∈ frame, ∀ rest : Text, (∀ x ∈ rest, IsPrinted x) → ∀ x ∈ c :: rest, IsPrinted x := by
    intro c hc rest hrest x hx
    rcases List.mem_cons.mp hx with rfl | hx
    · exact hframe x hc
    · exact hrest x hx
  have htext : ∀ s rest : Text, (∀ x ∈ rest, IsPrinted x) →
      ∀ x ∈ s.flatMap (stringPoint true) ++ .char '"' :: rest, IsPrinted x := by
    intro s rest hrest x hx
    rcases List.mem_append.mp hx with hx | hx
    · obtain ⟨c, _, hx⟩ := List.mem_flatMap.mp hx
      exact (stringPoint_self_or_escape c).1 x hx
    · exact hcons _ (by decide) rest hrest x hx
  refine t.line_keeps hcons (fun s _ => htext s) (fun s _ => htext s) ?_
  exact hcons _ (by decide) [] (by simp)

/-- The marker is in the line only when it is in one of the texts. -/
theorem line_clear (t : TextRecord) (h : ∀ s ∈ t.texts, occursIn marker s = false) :
    occursIn marker t.line = false := by
  have hcons : ∀ c ∈ frame, ∀ rest : Text, occursIn marker rest = false →
      occursIn marker (c :: rest) = false := by
    intro c hc rest hrest
    have hslash : ∀ c ∈ frame, c ≠ .char '/' := by decide
    rw [occursIn_marker_cons (hslash c hc), hrest]
  have htext : ∀ s : Text, occursIn marker s = false → ∀ rest : Text, occursIn marker rest = false →
      occursIn marker (s.flatMap (stringPoint true) ++ .char '"' :: rest) = false := by
    intro s hs rest hrest
    rw [occursIn_append_cons marker_ne_nil (by decide), occursIn_marker_printed hs, hrest,
      Bool.false_or]
  exact t.line_keeps hcons (fun s hs => htext s (h s hs))
    (fun s hs => htext s (by revert s; decide)) (by decide)

theorem line_begins (t : TextRecord) : ∃ rest, t.line = .char '\x7b' :: rest := by
  rw [line, toJson_eq]
  exact ⟨_, printOnto_obj_cons 0 _ _ []⟩

theorem line_ends (t : TextRecord) : ∃ init, t.line = init ++ [.char '\x7d'] := by
  have hcons : ∀ (c : CodePoint) (rest : Text), (∃ init, rest = init ++ [.char '\x7d']) →
      ∃ init, c :: rest = init ++ [.char '\x7d'] := by
    rintro c rest ⟨init, rfl⟩
    exact ⟨c :: init, rfl⟩
  have htext : ∀ s rest : Text, (∃ init, rest = init ++ [.char '\x7d']) →
      ∃ init, s.flatMap (stringPoint true) ++ .char '"' :: rest = init ++ [.char '\x7d'] := by
    rintro s rest ⟨init, rfl⟩
    exact ⟨s.flatMap (stringPoint true) ++ .char '"' :: init, by simp⟩
  exact t.line_keeps (fun c _ => hcons c) (fun s _ => htext s) (fun s _ => htext s) ⟨[], rfl⟩

end TextRecord
end ElementCompiler.Import
