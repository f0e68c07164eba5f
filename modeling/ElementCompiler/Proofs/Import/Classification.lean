import ElementCompiler.Import.Classification
import ElementCompiler.Proofs.Component.Texts
import ElementCompiler.Proofs.Distinct
import ElementCompiler.Proofs.Text.NullWord

set_option autoImplicit false

/-!
The classification of imports. The records are split by place in two lists that keep their order, and
the fields of the class are told apart name by name, in the order in which the names first occur.
-/

namespace ElementCompiler

open Attempt Text

section Places

variable {α : Type} {whole part : List α} {places : List Nat}

/-- The part of a list that stands at some of its places, in the order of the list. -/
structure IsPart (whole : List α) (places : List Nat) (part : List α) : Prop where
  ordered : places.Pairwise (· < ·)
  found : List.Forall₂ (fun place a => whole[place]? = some a) places part

/-- The places of the elements that have a property. -/
def placesOf (p : α → Bool) (whole : List α) : List Nat :=
  (whole.zipIdx.filter fun e => p e.1).map Prod.snd

theorem isPart_filter (p : α → Bool) (whole : List α) : IsPart whole (placesOf p whole) (whole.filter p) := by
  have hpart : (whole.zipIdx.filter fun e => p e.1).map Prod.fst = whole.filter p := by
    change (whole.zipIdx.filter (p ∘ Prod.fst)).map Prod.fst = whole.filter p
    rw [← List.filter_map, List.zipIdx_map_fst]
  refine ⟨?_, ?_⟩
  · have hsub : (placesOf p whole).Sublist (whole.zipIdx.map Prod.snd) := List.filter_sublist.map Prod.snd
    rw [List.zipIdx_map_snd] at hsub
    exact List.Pairwise.sublist hsub (List.pairwise_lt_range' 1)
  · rw [← hpart, placesOf, List.forall₂_map_left_iff, List.forall₂_map_right_iff, List.forall₂_same]
    intro e he
    exact List.mem_zipIdx_iff_getElem?.mp (List.mem_of_mem_filter he)

theorem mem_placesOf {p : α → Bool} {place : Nat} {a : α} (h : whole[place]? = some a) :
    place ∈ placesOf p whole ↔ p a = true := by
  constructor
  · intro hplace
    obtain ⟨e, he, rfl⟩ := List.mem_map.mp hplace
    obtain ⟨hmem, hp⟩ := List.mem_filter.mp he
    rw [List.mem_zipIdx_iff_getElem?.mp hmem] at h
    exact Option.some.inj h ▸ hp
  · intro hp
    exact List.mem_map.mpr ⟨(a, place), List.mem_filter.mpr ⟨List.mem_zipIdx_iff_getElem?.mpr h, hp⟩, rfl⟩

end Places

namespace Import

section Names

variable {r : ImportRecord} {view : Text}

/-- The closing tag of the record is in the view. -/
def ImportRecord.ClosesIn (view : Text) (r : ImportRecord) : Prop := closingTag r.name <:+: view

def ImportRecord.Binds (r : ImportRecord) (name : Text) : Prop := .text name ∈ Entries.keys r.imports

/-- Whatever the record binds is a text. -/
def ImportRecord.BindsTexts (r : ImportRecord) : Prop := ∀ k ∈ Entries.keys r.imports, ∃ name, k = .text name

def ImportRecord.boundNames (r : ImportRecord) : List Text := (Entries.keys r.imports).filterMap Key.text?

theorem isCustomElement_iff : r.isCustomElement view = true ↔ r.ClosesIn view := occursIn_iff

theorem mem_boundNames {name : Text} : name ∈ r.boundNames ↔ r.Binds name := by
  rw [ImportRecord.boundNames, List.mem_filterMap]
  constructor
  · rintro ⟨k, hk, hname⟩
    cases k with
    | text s => exact Option.some.inj hname ▸ hk
    | _ => cases hname
  · exact fun h => ⟨_, h, rfl⟩

theorem textOr_ofKey {k : Key} {fault : Fault} {s : Text} :
    (Json.ofKey k).textOr fault = .ok s ↔ k = .text s := by
  cases k <;> simp [Json.ofKey, Json.textOr]

theorem mapM_ofKey_eq_ok {keys : List Key} {fault : Fault} {names : List Text} :
    (keys.mapM fun k => (Json.ofKey k).textOr fault) = .ok names ↔ keys = names.map .text := by
  rw [mapM_eq_ok]
  simp only [textOr_ofKey]
  constructor
  · intro h
    induction h with
    | nil => rfl
    | cons hfirst _ ih => rw [List.map_cons, hfirst, ih]
  · rintro rfl
    exact List.forall₂_map_left_iff.mpr (List.forall₂_same.mpr fun _ _ => rfl)

theorem keys_eq_map (h : r.BindsTexts) : Entries.keys r.imports = r.boundNames.map .text := by
  unfold ImportRecord.BindsTexts at h
  unfold ImportRecord.boundNames
  generalize Entries.keys r.imports = keys at h
  induction keys with
  | nil => rfl
  | cons k keys ih =>
    obtain ⟨⟨name, rfl⟩, hrest⟩ := List.forall_mem_cons.mp h
    exact congrArg (Key.text name :: ·) (ih hrest)

/-- Names are looked for in the view when they are all texts. -/
theorem usedNames_eq_ok {keys : List Key} : usedNames view r = .ok keys ↔
    r.BindsTexts ∧ keys = (r.boundNames.filter (occursIn · view)).map .text := by
  constructor
  · intro h
    obtain ⟨names, hnames, h⟩ := bind_eq_ok.mp h
    have hkeys := mapM_ofKey_eq_ok.mp hnames
    have htexts : r.BindsTexts := fun k hk => by
      rw [hkeys] at hk
      exact (List.mem_map.mp hk).imp fun name hname => hname.2.symm
    have hsame : names = r.boundNames := by
      refine List.map_injective_iff.mpr (fun s t => Key.text.inj) ?_
      rw [← hkeys, ← keys_eq_map htexts]
    exact ⟨htexts, by rw [← hsame]; exact (Except.ok.inj h).symm⟩
  · rintro ⟨htexts, rfl⟩
    rw [usedNames, mapM_ofKey_eq_ok.mpr (keys_eq_map htexts)]
    rfl

end Names

section Classes

variable {records : List ImportRecord} {view : Text} {extra : List Text} {found : Classification}

/-- The names that the records of the code bind and the view uses, and then the extra names. -/
def fieldNames (view : Text) (records : List ImportRecord) (extra : List Text) : List Text :=
  ((records.filter fun r => !r.isCustomElement view).flatMap fun r =>
    r.boundNames.filter (occursIn · view)) ++ extra

/-- What a classification of the records is. -/
structure Classifies (records : List ImportRecord) (view : Text) (extra : List Text)
    (found : Classification) : Prop where
  split : ∃ customPlaces codePlaces, IsPart records customPlaces found.customElements ∧
    IsPart records codePlaces found.codeImports ∧ ∀ place r, records[place]? = some r →
      (place ∈ customPlaces ↔ r.ClosesIn view) ∧ (place ∈ codePlaces ↔ ¬ r.ClosesIn view)
  fields : ∃ fields : List Text, found.classFields = fields.map .text ∧ fields.Nodup ∧
    (∀ name, name ∈ fields ↔
      (name ∈ extra ∨ ∃ r ∈ records, ¬ r.ClosesIn view ∧ r.Binds name ∧ name <:+: view) ∧
        ∀ r ∈ records, r.ClosesIn view → name ≠ r.name ∧ ¬ r.Binds name) ∧
    fields.Pairwise fun a b =>
      (fieldNames view records extra).idxOf a < (fieldNames view records extra).idxOf b

theorem mapM_usedNames_eq_ok {used : List (List Key)} : records.mapM (usedNames view) = .ok used ↔
    (∀ r ∈ records, r.BindsTexts) ∧
      used = records.map fun r => (r.boundNames.filter (occursIn · view)).map .text := by
  rw [mapM_eq_ok]
  simp only [usedNames_eq_ok]
  constructor
  · intro h
    induction h with
    | nil => exact ⟨List.forall_mem_nil _, rfl⟩
    | cons hfirst _ ih =>
      exact ⟨List.forall_mem_cons.mpr ⟨hfirst.1, ih.1⟩, by rw [List.map_cons, hfirst.2, ih.2]⟩
  · rintro ⟨htexts, rfl⟩
    exact List.forall₂_map_right_iff.mpr (List.forall₂_same.mpr fun r hr => ⟨htexts r hr, rfl⟩)

theorem mem_fieldNames {name : Text} : name ∈ fieldNames view records extra ↔
    name ∈ extra ∨ ∃ r ∈ records, ¬ r.ClosesIn view ∧ r.Binds name ∧ name <:+: view := by
  simp only [fieldNames, List.mem_append, List.mem_flatMap, List.mem_filter, mem_boundNames,
    Bool.not_eq_true', Bool.eq_false_iff, ne_eq, isCustomElement_iff, occursIn_iff, and_assoc]
  exact or_comm

theorem mem_takenNames {name : Text} :
    .text name ∈ takenNames (records.filter (ImportRecord.isCustomElement view)) ↔
      ∃ r ∈ records, r.ClosesIn view ∧ (name = r.name ∨ r.Binds name) := by
  simp only [takenNames, List.mem_flatMap, List.mem_filter, isCustomElement_iff, List.mem_cons,
    Key.text.injEq, ImportRecord.Binds, and_assoc]

/-- A text is found among keys when it is one of them. -/
theorem contains_text {keys : List Key} {name : Text} :
    keys.contains (Key.text name) = true ↔ Key.text name ∈ keys := by
  rw [List.contains_eq_any_beq, List.any_eq_true]
  constructor
  · rintro ⟨k, hk, hsame⟩
    exact Key.eq_text_of_beq (BEq.symm hsame) ▸ hk
  · exact fun h => ⟨_, h, BEq.rfl⟩

theorem classify_iff : classify records view (extra.map .text) = .ok found ↔
    (∀ r ∈ records, ¬ r.ClosesIn view → r.BindsTexts) ∧
      found = ⟨records.filter (ImportRecord.isCustomElement view),
        records.filter fun r => !r.isCustomElement view,
        ((fieldNames view records extra).eraseDups.filter fun name => !(takenNames
          (records.filter (ImportRecord.isCustomElement view))).contains (.text name)).map .text⟩ := by
  have htext : ∀ s t : Text, (Key.text s == Key.text t) = (s == t) := fun s t => by
    rw [Bool.eq_iff_iff, Key.text_beq_text, beq_iff_eq]
  have hcode : ∀ {P : ImportRecord → Prop}, (∀ r ∈ records.filter fun r => !r.isCustomElement view, P r) ↔
      ∀ r ∈ records, ¬ r.ClosesIn view → P r := by
    simp only [List.mem_filter, Bool.not_eq_true', Bool.eq_false_iff, ne_eq, isCustomElement_iff, and_imp,
      implies_true]
  have hnames : ((records.filter fun r => !r.isCustomElement view).map fun r =>
      (r.boundNames.filter (occursIn · view)).map Key.text).flatten ++ extra.map .text =
        (fieldNames view records extra).map .text := by
    rw [fieldNames, List.map_append, List.map_flatMap, List.flatMap_def]
  rw [classify, bind_eq_ok]
  simp only [mapM_usedNames_eq_ok, hcode, and_assoc, exists_and_left, exists_eq_left, hnames,
    eraseDups_map htext, List.filter_map]
  constructor
  · rintro ⟨htexts, h⟩
    exact ⟨htexts, (Except.ok.inj h).symm⟩
  · rintro ⟨htexts, rfl⟩
    exact ⟨htexts, rfl⟩

end Classes

/-- Classification of imports. It goes through exactly when the records that stay with the code bind
    texts. The records are split by place, in their order, the custom elements being those whose closing
    tag is in the view. The fields are named once each, in the order in which the names first occur, those
    of records before the extra ones; and they are the extra names and those that a record of the code
    binds and the view uses, but for the names of custom elements and the names bound by one. -/
theorem classification_exact (records : List ImportRecord) (view : Text) (extra : List Text) :
    ((∃ found, classify records view (extra.map .text) = .ok found) ↔
        ∀ r ∈ records, ¬ r.ClosesIn view → r.BindsTexts) ∧
      ∀ found, classify records view (extra.map .text) = .ok found →
        Classifies records view extra found := by
  constructor
  · simp only [classify_iff, exists_and_left, exists_eq, and_true]
  · intro found hfound
    obtain ⟨-, rfl⟩ := classify_iff.mp hfound
    refine ⟨⟨_, _, isPart_filter _ _, isPart_filter _ _, fun place r hplace => ?_⟩, _, rfl,
      (nodup_eraseDups _).filter _, fun name => ?_, (eraseDups_ordered _).filter _⟩
    · rw [mem_placesOf hplace, mem_placesOf hplace, Bool.not_eq_true', Bool.eq_false_iff, ne_eq,
        isCustomElement_iff]
      exact ⟨Iff.rfl, Iff.rfl⟩
    · rw [List.mem_filter, List.mem_eraseDups, mem_fieldNames, Bool.not_eq_true', Bool.eq_false_iff, ne_eq,
        contains_text, mem_takenNames]
      refine and_congr_right fun _ => ?_
      simp only [not_exists, not_and, not_or]

/-- A record of one module with a name that it binds to its default export. -/
def defaultRecord (name bound : Text) : ImportRecord := ⟨name, "./module", [], [], [(bound, .str "default")]⟩

theorem classification_exact_button :
    let records := [defaultRecord "Button" "Button", defaultRecord "math" "sum", defaultRecord "log" "log"]
    let view : Text := "<button>$\x7bsum(x)\x7d</button>"
    ∃ found, classify records view ([ofString "Button", "LIMIT", "sum"].map .text) = .ok found ∧
      found.customElements = records.take 1 ∧ found.codeImports = records.drop 1 ∧
      found.classFields = ([ofString "sum", "LIMIT"]).map .text ∧
      Classifies records view ["Button", "LIMIT", "sum"] found := by
  intro records view
  have hfound : classify records view ([ofString "Button", "LIMIT", "sum"].map .text) =
      .ok ⟨records.take 1, records.drop 1, ([ofString "sum", "LIMIT"]).map .text⟩ := rfl
  exact ⟨_, hfound, rfl, rfl, rfl, (classification_exact records view ["Button", "LIMIT", "sum"]).2 _ hfound⟩

end Import

end ElementCompiler
