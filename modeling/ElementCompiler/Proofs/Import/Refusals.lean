import ElementCompiler.Import.Channel
import ElementCompiler.Proofs.Json.Shapes

set_option autoImplicit false

/-!
How the reading of a channel fails. A segment without a record, and a record without a name, are
refused with a fault of the channel. A whole number that is too long and imports that make no object
end the reading with a fault of their own, since nothing looks at them first.
-/

namespace ElementCompiler.Import

open Text Json

/-- The faults of values that reach an operation without a check. -/
def uncheckedCategories : List Category := [.value, .kind]

/-- An attempt goes through exactly under one condition, and fails with a fault that is not of the
    channel exactly under another. -/
def EndsBy {α : Type} (x : Attempt α) (through unguarded : Prop) : Prop :=
  match x with
  | .ok _ => through ∧ ¬unguarded
  | .error f => ¬through ∧ (f.report.category = .importChannel ∧ ¬unguarded ∨
      f.report.category ∈ uncheckedCategories ∧ unguarded)

theorem EndsBy.of_iff {α : Type} {x : Attempt α} {p p' q q' : Prop} (h : EndsBy x p q)
    (hp : p ↔ p') (hq : q ↔ q') : EndsBy x p' q' :=
  propext hp ▸ propext hq ▸ h

theorem EndsBy.return {α β : Type} {x : Attempt α} {p q : Prop} (h : EndsBy x p q) (f : α → β) :
    EndsBy (x >>= fun a => .ok (f a)) p q := by
  cases x with
  | ok a => exact h
  | error e => exact h

/-- The second step is taken only when the first goes through. -/
theorem EndsBy.bind {α β : Type} {x : Attempt α} {f : α → Attempt β} {p p' q q' : Prop}
    (hx : EndsBy x p q) (hf : ∀ a, EndsBy (f a) p' q') :
    EndsBy (x >>= f) (p ∧ p') (q ∨ p ∧ q') := by
  cases x with
  | error e =>
    obtain ⟨hnot, hfault⟩ := hx
    refine ⟨fun h => hnot h.1, ?_⟩
    rcases hfault with ⟨hchannel, hguarded⟩ | ⟨hunchecked, hunguarded⟩
    · exact .inl ⟨hchannel, fun hq => hq.elim hguarded fun h => hnot h.1⟩
    · exact .inr ⟨hunchecked, .inl hunguarded⟩
  | ok a =>
    obtain ⟨hp, hguarded⟩ := hx
    have hstep := hf a
    change EndsBy (f a) _ _
    cases hfa : f a with
    | ok b =>
      rw [hfa] at hstep
      exact ⟨⟨hp, hstep.1⟩, fun hq => hq.elim hguarded fun h => hstep.2 h.2⟩
    | error e =>
      rw [hfa] at hstep
      obtain ⟨hnot, hfault⟩ := hstep
      refine ⟨fun h => hnot h.2, ?_⟩
      rcases hfault with ⟨hchannel, hstep⟩ | ⟨hunchecked, hunguarded⟩
      · exact .inl ⟨hchannel, fun hq => hq.elim hguarded fun h => hstep h.2⟩
      · exact .inr ⟨hunchecked, .inr ⟨hp, hunguarded⟩⟩

/-- The search for a record goes on past what is no JSON, and past a value with more behind it. -/
def isSkipped (cs : Text) : Bool :=
  match Json.readStart cs with
  | .ok (_, rest) => !rest.isEmpty
  | .error (.refused _) => true
  | .error (.integerTooLong _) => false

/-- What is read where the search ends, candidates given from the last to the first. -/
def searchEnd? (starts : List Text) : Option (Except Json.Failure Json) :=
  (starts.find? fun cs => !isSkipped cs).map fun cs => (Json.readStart cs).map Prod.fst

/-- What is read at the end of a segment, white space around it aside. -/
def closing? (segment : Text) : Option (Except Json.Failure Json) :=
  searchEnd? (candidates true (trim segment)).reverse

def IsNamed : Json → Prop := WithFields fun fields => (part fields "name").isGiven = true

/-- The imports of a record are missing, an object, or pairs. -/
def HasMapping : Json → Prop := WithFields fun fields => Given IsMapping (part fields "imports")

/-- A segment of white space, or with a named record at its end whose imports make an object. -/
def IsRead (segment : Text) : Prop :=
  trim segment = [] ∨ ∃ j, closing? segment = some (.ok j) ∧ IsNamed j ∧ HasMapping j

/-- A segment with a whole number that is too long where the search ends, or with a named record
    whose imports make no object. -/
def IsUnguarded (segment : Text) : Prop :=
  (∃ digits, closing? segment = some (.error (.integerTooLong digits))) ∨
    ∃ j, closing? segment = some (.ok j) ∧ IsNamed j ∧ ¬HasMapping j

theorem searchEnd?_skipped {cs : Text} (h : isSkipped cs = true) (rest : List Text) :
    searchEnd? (cs :: rest) = searchEnd? rest := by
  rw [searchEnd?, List.find?_cons_of_neg (by simp [h]), searchEnd?]

theorem searchEnd?_stops {cs : Text} (h : isSkipped cs = false) (rest : List Text) :
    searchEnd? (cs :: rest) = some ((Json.readStart cs).map Prod.fst) := by
  rw [searchEnd?, List.find?_cons_of_pos (by simp [h]), Option.map_some]

/-- The search gives the value where it ends, or the fault of a long number there; when every
    candidate is skipped it is refused. -/
theorem firstRecord_spec (segment : Text) (refusal : Option Json.Refusal) (starts : List Text) :
    match searchEnd? starts with
    | none => ∃ f, firstRecord segment refusal starts = .error f ∧
        f.report.category = .importChannel
    | some (.ok j) => ∃ n, firstRecord segment refusal starts = .ok (n, j)
    | some (.error (.integerTooLong n)) =>
        firstRecord segment refusal starts = .error (.integerTooLong n)
    | some (.error (.refused _)) => False := by
  induction starts generalizing refusal with
  | nil =>
    cases refusal with
    | none => exact ⟨_, rfl, rfl⟩
    | some r => exact ⟨_, rfl, rfl⟩
  | cons cs rest ih =>
    rw [firstRecord]
    cases hread : Json.readStart cs with
    | ok found =>
      obtain ⟨j, tail⟩ := found
      cases tail with
      | nil =>
        rw [searchEnd?_stops (by rw [isSkipped, hread]; rfl), hread]
        exact ⟨cs.length, rfl⟩
      | cons c tail =>
        rw [searchEnd?_skipped (by rw [isSkipped, hread]; rfl)]
        exact ih refusal
    | error failure =>
      cases failure with
      | refused r =>
        rw [searchEnd?_skipped (by rw [isSkipped, hread])]
        exact ih _
      | integerTooLong digits =>
        rw [searchEnd?_stops (by rw [isSkipped, hread]), hread]
        rfl

theorem pairsFrom_fault {index : Nat} {done : Entries Json Key} {items : List Json} {f : Fault}
    (h : pairsFrom index done items = .error f) : f.report.category ∈ uncheckedCategories := by
  induction items generalizing index done with
  | nil => cases h
  | cons j rest ih =>
    rw [pairsFrom] at h
    split at h
    · cases h
      decide
    · next k v _ =>
      rw [asKey] at h
      cases hkey : k.key? with
      | none =>
        rw [hkey] at h
        cases h
        decide
      | some key =>
        rw [hkey] at h
        exact ih h
    · cases h
      exact List.mem_cons_self

theorem toFields_fault {j : Json} {f : Fault} (h : j.toFields = .error f) :
    f.report.category ∈ uncheckedCategories := by
  have hitems : (j.items >>= pairsFrom 0 []) = .error f →
      f.report.category ∈ uncheckedCategories := by
    intro h
    rw [items] at h
    cases hj : j.items? with
    | none =>
      rw [hj] at h
      cases h
      decide
    | some items =>
      rw [hj] at h
      exact pairsFrom_fault h
  cases j with
  | obj fields => cases h
  | _ => exact hitems h

/-- The fields of a value are had exactly when it is a mapping. -/
theorem toFields_endsBy (j : Json) : EndsBy j.toFields (IsMapping j) (¬IsMapping j) := by
  have hdemands := toFields_demands j
  cases hfields : j.toFields with
  | ok fields =>
    rw [hfields] at hdemands
    exact ⟨hdemands, not_not_intro hdemands⟩
  | error f =>
    have hfault := toFields_fault hfields
    rw [hfields] at hdemands
    rcases hdemands with hserial | ⟨hnot, _⟩
    · rw [hserial] at hfault
      exact absurd hfault (by decide)
    · exact ⟨hnot, .inr ⟨hfault, hnot⟩⟩

theorem orElse_endsBy (j : Json) :
    EndsBy (j.orElse (.obj [])).toFields (Given IsMapping j) (¬Given IsMapping j) := by
  have hgiven : IsMapping (j.orElse (.obj [])) ↔ Given IsMapping j := by
    unfold Json.orElse
    split
    next hj => exact ⟨fun hp _ => hp, fun hp => hp hj⟩
    next hj => exact ⟨fun _ hj' => absurd hj' hj, fun _ => trivial⟩
  exact (toFields_endsBy _).of_iff hgiven (not_congr hgiven)

/-- An object with a name is a record, and its imports are taken as they are. -/
theorem ofJson_named {fields : Entries Json Key} (h : (part fields "name").isGiven = true) :
    ImportRecord.ofJson (.obj fields) =
      ((part fields "imports").orElse (.obj [])).toFields >>= fun imports =>
        .ok ⟨(part fields "name").display, ((Entries.get? fields (.text "path")).getD (.str [])).display,
          ((Entries.get? fields (.text "template")).getD (.str [])).display,
          ((Entries.get? fields (.text "jsPath")).getD (.str [])).display, imports⟩ := by
  have hname : ((Entries.get? fields (.text "name")).getD .null).isGiven = true := h
  simp only [ImportRecord.ofJson, hname, Bool.not_true, Bool.false_eq_true, if_false]
  rfl

theorem ofJson_endsBy (j : Json) :
    EndsBy (ImportRecord.ofJson j) (IsNamed j ∧ HasMapping j) (IsNamed j ∧ ¬HasMapping j) := by
  have hnameless (j : Json) (hnot : ¬IsNamed j) :
      EndsBy (.error (.recordWithoutName j) : Attempt ImportRecord) (IsNamed j ∧ HasMapping j)
        (IsNamed j ∧ ¬HasMapping j) :=
    ⟨fun h => hnot h.1, .inl ⟨rfl, fun h => hnot h.1⟩⟩
  cases j with
  | obj fields =>
    by_cases hname : (part fields "name").isGiven = true
    · rw [ofJson_named hname]
      have hnamed : IsNamed (.obj fields) := hname
      exact ((orElse_endsBy _).return _).of_iff (and_iff_right hnamed).symm
        (and_iff_right hnamed).symm
    · have hrefused : ImportRecord.ofJson (.obj fields) =
          .error (.recordWithoutName (.obj fields)) := by
        have hname : ((Entries.get? fields (.text "name")).getD .null).isGiven = false :=
          Bool.eq_false_iff.mpr hname
        simp only [ImportRecord.ofJson, hname, Bool.not_false, if_true]
      rw [hrefused]
      exact hnameless _ hname
  | _ => exact hnameless _ id

theorem segmentEntries_error {segment : Text} {f : Fault} (hne : trim segment ≠ [])
    (h : firstRecord (trim segment) none (candidates true (trim segment)).reverse = .error f) :
    segmentEntries segment = .error f := by
  simp only [segmentEntries, List.isEmpty_iff, if_neg hne, splitRecord, h]
  rfl

theorem segmentEntries_record {segment : Text} {length : Nat} {j : Json} (hne : trim segment ≠ [])
    (h : firstRecord (trim segment) none (candidates true (trim segment)).reverse = .ok (length, j)) :
    ∃ entries : ImportRecord → List ChannelEntry,
      segmentEntries segment = ImportRecord.ofJson j >>= fun record => .ok (entries record) := by
  let flat := trim ((trim segment).take ((trim segment).length - length))
  refine ⟨fun record => if flat.isEmpty then [.record record] else [.code flat, .record record], ?_⟩
  simp only [segmentEntries, List.isEmpty_iff, if_neg hne, splitRecord, h]
  rfl

/-- One segment gives its entries, is refused, or ends the reading with a fault of its own. -/
theorem segmentEntries_endsBy (segment : Text) :
    EndsBy (segmentEntries segment) (IsRead segment) (IsUnguarded segment) := by
  by_cases hblank : trim segment = []
  · have hentries : segmentEntries segment = .ok [] := by
      simp only [segmentEntries, hblank, List.isEmpty_nil, if_true]
      rfl
    have hclosing : closing? segment = none := by
      rw [closing?, hblank]
      rfl
    rw [hentries]
    exact ⟨.inl hblank, by simp [IsUnguarded, hclosing]⟩
  · have hfirst := firstRecord_spec (trim segment) none (candidates true (trim segment)).reverse
    rw [← closing?] at hfirst
    cases hclosing : closing? segment with
    | none =>
      rw [hclosing] at hfirst
      obtain ⟨f, hf, hcategory⟩ := hfirst
      rw [segmentEntries_error hblank hf]
      exact ⟨by simp [IsRead, hblank, hclosing], .inl ⟨hcategory, by simp [IsUnguarded, hclosing]⟩⟩
    | some outcome =>
      rw [hclosing] at hfirst
      match outcome with
      | .ok j =>
        obtain ⟨length, hrecord⟩ := hfirst
        obtain ⟨entries, hentries⟩ := segmentEntries_record hblank hrecord
        rw [hentries]
        exact ((ofJson_endsBy j).return entries).of_iff (by simp [IsRead, hblank, hclosing])
          (by simp [IsUnguarded, hclosing])
      | .error (.integerTooLong digits) =>
        rw [segmentEntries_error hblank hfirst]
        refine ⟨by simp [IsRead, hblank, hclosing], .inr ⟨List.mem_cons_self, ?_⟩⟩
        simp [IsUnguarded, hclosing]

/-- Behind segments that are read there is one that ends the reading with a fault of its own. -/
def MeetsUnguarded (segments : List Text) : Prop :=
  ∃ before segment after, segments = before ++ segment :: after ∧ (∀ s ∈ before, IsRead s) ∧
    IsUnguarded segment

theorem meetsUnguarded_cons (first : Text) (rest : List Text) :
    MeetsUnguarded (first :: rest) ↔ IsUnguarded first ∨ IsRead first ∧ MeetsUnguarded rest := by
  constructor
  · rintro ⟨before, segment, after, hsplit, hbefore, hsegment⟩
    cases before with
    | nil =>
      obtain ⟨rfl, rfl⟩ := List.cons.inj hsplit
      exact .inl hsegment
    | cons b before =>
      obtain ⟨rfl, rfl⟩ := List.cons.inj hsplit
      obtain ⟨hfirst, hbefore⟩ := List.forall_mem_cons.mp hbefore
      exact .inr ⟨hfirst, before, segment, after, rfl, hbefore, hsegment⟩
  · rintro (hfirst | ⟨hfirst, before, segment, after, rfl, hbefore, hsegment⟩)
    · exact ⟨[], first, rest, rfl, fun s hs => absurd hs List.not_mem_nil, hfirst⟩
    · exact ⟨first :: before, segment, after, rfl, List.forall_mem_cons.mpr ⟨hfirst, hbefore⟩,
        hsegment⟩

/-- Segments are read one after the other, and the first that is not read ends the reading. -/
theorem channelEntries_endsBy (segments : List Text) :
    EndsBy (channelEntries segments) (∀ s ∈ segments, IsRead s) (MeetsUnguarded segments) := by
  induction segments with
  | nil => exact ⟨fun s hs => absurd hs List.not_mem_nil, by simp [MeetsUnguarded]⟩
  | cons first rest ih =>
    have hstep : EndsBy (channelEntries (first :: rest)) (IsRead first ∧ ∀ s ∈ rest, IsRead s)
        (IsUnguarded first ∨ IsRead first ∧ MeetsUnguarded rest) :=
      (segmentEntries_endsBy first).bind fun _ => ih.return _
    exact hstep.of_iff List.forall_mem_cons.symm (meetsUnguarded_cons first rest).symm

/-- A text fails to be read as a channel with a fault of the channel unless, behind segments that
    are read, one has a whole number that is too long or imports that make no object: then the fault
    is one of a value or a kind. The channel is read when all its segments are. -/
theorem channel_faults_reported (text : Text) :
    ((∃ channel, Channel.parse text = .ok channel) ↔
      ∀ segment ∈ (split marker text).dropLast, IsRead segment) ∧
    (((∃ channel, Channel.parse text = .ok channel) ∨
        ∃ f, Channel.parse text = .error f ∧ f.report.category = .importChannel) ↔
      ¬MeetsUnguarded (split marker text).dropLast) ∧
    ∀ f, Channel.parse text = .error f →
      f.report.category = .importChannel ∨ f.report.category ∈ uncheckedCategories := by
  have hparse : EndsBy (Channel.parse text)
      (∀ segment ∈ (split marker text).dropLast, IsRead segment)
      (MeetsUnguarded (split marker text).dropLast) :=
    (channelEntries_endsBy _).return _
  cases hresult : Channel.parse text with
  | ok channel =>
    rw [hresult] at hparse
    refine ⟨⟨fun _ => hparse.1, fun _ => ⟨channel, rfl⟩⟩,
      ⟨fun _ => hparse.2, fun _ => .inl ⟨channel, rfl⟩⟩, ?_⟩
    rintro f hf
    cases hf
  | error f =>
    rw [hresult] at hparse
    obtain ⟨hunread, hfault⟩ := hparse
    refine ⟨⟨?_, fun h => absurd h hunread⟩, ⟨?_, fun h => ?_⟩, ?_⟩
    · rintro ⟨channel, h⟩
      cases h
    · rintro (⟨channel, h⟩ | ⟨e, h, hcategory⟩)
      · cases h
      · cases h
        rcases hfault with ⟨_, hguarded⟩ | ⟨hunchecked, _⟩
        · exact hguarded
        · rw [hcategory] at hunchecked
          exact absurd hunchecked (by decide)
    · exact .inr ⟨f, rfl, (hfault.resolve_right fun hfault => h hfault.2).1⟩
    · rintro e he
      cases he
      exact hfault.imp And.left And.left

/-- A number in the place of the imports is taken for an object. -/
theorem number_for_imports_unreported :
    ∃ f, Channel.parse ("\x7b\"name\": \"A\", \"imports\": 5\x7d" ++ marker) = .error f ∧
      f.report.category = .kind := by
  have hreport : Attempt.report? (Channel.parse ("\x7b\"name\": \"A\", \"imports\": 5\x7d" ++ marker)) =
      some Fault.wrongKind.report := by
    decide +kernel
  obtain ⟨f, hf, hreport⟩ := Attempt.exists_of_report? hreport
  exact ⟨f, hf, by rw [hreport]; rfl⟩

end ElementCompiler.Import
