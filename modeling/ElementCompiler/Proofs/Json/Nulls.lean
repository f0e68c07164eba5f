import ElementCompiler.Json.Display
import ElementCompiler.Proofs.Entries
import ElementCompiler.Proofs.Json.Numbers
import ElementCompiler.Proofs.Json.Shapes
import ElementCompiler.Proofs.Text.NullWord

set_option autoImplicit false

/-!
Values that do not show the word of a missing value. A value whose texts are without it shows it only
where it holds a null, itself or at some depth.
-/

namespace ElementCompiler.Json

open Text (Edits isBlock_iff nullFree_append_cons nullFree_of_notMem)

mutual

/-- The texts in a value, those of its keys among them. -/
def texts : Json → List Text
  | .str s => [s]
  | .arr items => itemTexts items
  | .obj fields => fieldTexts fields
  | _ => []

def itemTexts : List Json → List Text
  | [] => []
  | j :: rest => texts j ++ itemTexts rest

def fieldTexts : List (Key × Json) → List Text
  | [] => []
  | (k, j) :: rest => k.text?.toList ++ (texts j ++ fieldTexts rest)

end

mutual

/-- Whether a value is null or holds a null at some depth, keys included. -/
def holdsNull : Json → Bool
  | .null => true
  | .arr items => itemsHoldNull items
  | .obj fields => fieldsHoldNull fields
  | _ => false

def itemsHoldNull : List Json → Bool
  | [] => false
  | j :: rest => holdsNull j || itemsHoldNull rest

def fieldsHoldNull : List (Key × Json) → Bool
  | [] => false
  | (k, j) :: rest => (ofKey k).isNull || (holdsNull j || fieldsHoldNull rest)

end

/-- No text in the value and none of its keys has the word of a missing value. -/
def NullFree (j : Json) : Prop := ∀ s ∈ j.texts, Text.NullFree s

section Parts

@[simp] theorem nullFree_str {s : Text} : NullFree (.str s) ↔ Text.NullFree s := by
  rw [NullFree, texts, List.forall_mem_singleton]

theorem nullFree_arr {items : List Json} : NullFree (.arr items) ↔ ∀ j ∈ items, NullFree j := by
  rw [NullFree, texts]
  induction items with
  | nil => simp [itemTexts]
  | cons j rest ih => rw [itemTexts, List.forall_mem_append, List.forall_mem_cons, ih, NullFree]

theorem nullFree_obj {fields : Entries Json Key} : NullFree (.obj fields) ↔
    ∀ f ∈ fields, (∀ s, f.1 = .text s → Text.NullFree s) ∧ NullFree f.2 := by
  rw [NullFree, texts]
  induction fields with
  | nil => simp [fieldTexts]
  | cons f rest ih =>
    obtain ⟨k, j⟩ := f
    have hkey : (∀ s ∈ k.text?.toList, Text.NullFree s) ↔ ∀ s, k = .text s → Text.NullFree s := by
      cases k <;> simp [Key.text?]
    rw [fieldTexts, List.forall_mem_append, List.forall_mem_append, List.forall_mem_cons, hkey, ih,
      NullFree, and_assoc]

theorem nullFree_null : NullFree .null := by rintro _ ⟨⟩

theorem nullFree_ofKey {k : Key} (h : ∀ s, k = .text s → Text.NullFree s) : NullFree (ofKey k) := by
  cases k with
  | text s => exact nullFree_str.mpr (h s rfl)
  | _ => rintro _ ⟨⟩

variable {j : Json}

/-- What a value is gone through by has no other texts, a text its characters. -/
theorem NullFree.members (h : j.NullFree) : ∀ item ∈ j.members, item.NullFree := by
  cases j with
  | arr items => exact nullFree_arr.mp h
  | str s =>
    intro item hitem
    obtain ⟨c, hc, rfl⟩ := List.mem_map.mp hitem
    obtain ⟨before, after, rfl⟩ := List.append_of_mem hc
    exact nullFree_str.mpr ((nullFree_str.mp h).of_within ⟨before, after, by simp⟩)
  | obj fields =>
    intro item hitem
    obtain ⟨f, hf, rfl⟩ := List.mem_map.mp hitem
    exact nullFree_ofKey (nullFree_obj.mp h f hf).1
  | _ => rintro _ ⟨⟩

theorem NullFree.get? {fields : Entries Json Key} (h : NullFree (.obj fields)) {key : Key}
    (hj : Entries.get? fields key = some j) : j.NullFree := by
  obtain ⟨k, hk⟩ := Entries.mem_of_get? hj
  exact (nullFree_obj.mp h _ hk).2

theorem NullFree.part {fields : Entries Json Key} (h : NullFree (.obj fields)) (key : Text) :
    (Json.part fields key).NullFree := by
  rw [Json.part]
  cases hj : Entries.get? fields (.text key) with
  | none => exact nullFree_null
  | some j => exact h.get? hj

theorem NullFree.orElse {default : Json} (h : j.NullFree) (hdefault : default.NullFree) :
    (j.orElse default).NullFree := by
  unfold Json.orElse
  split
  · exact h
  · exact hdefault

theorem holdsNull_arr {items : List Json} :
    holdsNull (.arr items) = false ↔ ∀ j ∈ items, j.holdsNull = false := by
  rw [holdsNull]
  induction items with
  | nil => simp [itemsHoldNull]
  | cons j rest ih => rw [itemsHoldNull, Bool.or_eq_false_iff, List.forall_mem_cons, ih]

theorem holdsNull_obj {fields : Entries Json Key} : holdsNull (.obj fields) = false ↔
    ∀ f ∈ fields, (ofKey f.1).isNull = false ∧ f.2.holdsNull = false := by
  rw [holdsNull]
  induction fields with
  | nil => simp [fieldsHoldNull]
  | cons f rest ih =>
    obtain ⟨k, j⟩ := f
    rw [fieldsHoldNull, Bool.or_eq_false_iff, Bool.or_eq_false_iff, List.forall_mem_cons, ih, and_assoc]

end Parts

section Display

theorem notMem_hex (width n : Nat) : CodePoint.char 'N' ∉ Text.hex width n := by
  have hdigit : ∀ k < 16, "0123456789abcdef".toList.getD k '0' ≠ 'N' := by decide
  induction width generalizing n with
  | zero => exact List.not_mem_nil
  | succ width ih =>
    rw [Text.hex, List.mem_append, not_or, List.mem_singleton]
    exact ⟨ih _, fun h => hdigit _ (Nat.mod_lt n (by decide)) (CodePoint.char.inj h).symm⟩

/-- A code point of a quoted text is written as it is or by an escape. -/
theorem quotePoint_cases {q : CodePoint} (hq : q = .char '\'' ∨ q = .char '"') (c : CodePoint) :
    Text.quotePoint q c = [c] ∨ Text.isBlock (Text.quotePoint q c) = true := by
  have hescape : ∀ (letter : Char) (width : Nat), letter ≠ 'N' →
      Text.isBlock (.char '\\' :: .char letter :: Text.hex width c.number) = true := by
    intro letter width hletter
    refine isBlock_iff.mpr ⟨⟨_, _, rfl, by decide⟩, ?_⟩
    simp only [List.mem_cons, CodePoint.char.injEq, not_or]
    exact ⟨by decide, hletter.symm, notMem_hex width c.number⟩
  unfold Text.quotePoint
  split
  next hc =>
    refine .inr (isBlock_iff.mpr ⟨⟨_, _, rfl, by decide⟩, ?_⟩)
    rw [Bool.or_eq_true, decide_eq_true_eq, decide_eq_true_eq] at hc
    rcases hc with rfl | rfl
    · rcases hq with rfl | rfl <;> decide
    · decide
  repeat' split
  · exact .inr (by decide)
  · exact .inr (by decide)
  · exact .inr (by decide)
  · exact .inl rfl
  · exact .inr (hescape 'x' 2 (by decide))
  · exact .inr (hescape 'u' 4 (by decide))
  · exact .inr (hescape 'U' 8 (by decide))

theorem edits_quotePoints {q : CodePoint} (hq : q = .char '\'' ∨ q = .char '"') (s : Text) :
    Edits true s (s.flatMap (Text.quotePoint q)) := by
  induction s with
  | nil => exact .nil
  | cons c cs ih =>
    rw [List.flatMap_cons]
    rcases quotePoint_cases hq c with hc | hc
    · rw [hc]
      exact .keep c ih.weaken
    · exact .put [c] hc ih

theorem quoted_nullFree {s : Text} (h : Text.NullFree s) : Text.NullFree (Text.quoted s) := by
  have hq : Text.quoteOf s = .char '\'' ∨ Text.quoteOf s = .char '"' := by
    unfold Text.quoteOf
    split
    · exact .inr rfl
    · exact .inl rfl
  have hletter : Text.isNullLetter (Text.quoteOf s) = false := by
    rcases hq with hq | hq <;> rw [hq] <;> decide
  rw [Text.quoted, ← List.nil_append (Text.quoteOf s :: _), nullFree_append_cons hletter,
    nullFree_append_cons hletter]
  exact ⟨Text.nullFree_nil, (edits_quotePoints hq s).nullFree h, Text.nullFree_nil⟩

theorem numbers_notN : Decimal.numberCharacters.all (fun c => c != .char 'N') = true := by decide

theorem nullFree_of_all {s : Text} (h : (s.all fun c => c != .char 'N') = true) : Text.NullFree s :=
  nullFree_of_notMem fun hmem => by simpa using List.all_eq_true.mp h _ hmem

theorem keyLiteral_nullFree {k : Key} (htext : ∀ s, k = .text s → Text.NullFree s)
    (hnull : (ofKey k).isNull = false) : Text.NullFree (keyLiteral k) := by
  cases k with
  | null => cases hnull
  | bool b => cases b <;> decide
  | int n => exact nullFree_of_all (Decimal.all_int numbers_notN n)
  | float x =>
    exact nullFree_of_all (Decimal.all_layoutText numbers_notN (by decide) (by decide) (by decide) x)
  | text s => exact quoted_nullFree (htext s rfl)

theorem bracketed_nullFree {first last : CodePoint} (hfirst : Text.isNullLetter first = false)
    (hlast : Text.isNullLetter last = false) {parts : List Text} (h : ∀ t ∈ parts, Text.NullFree t) :
    Text.NullFree ([first] ++ Text.join ", " parts ++ [last]) := by
  rw [nullFree_append_cons hlast, ← List.nil_append ([first] ++ _), List.singleton_append,
    nullFree_append_cons hfirst]
  exact ⟨⟨Text.nullFree_nil, Text.NullFree.join (by decide) h⟩, Text.nullFree_nil⟩

mutual

theorem literal_nullFree (j : Json) (h : j.NullFree) (hnull : j.holdsNull = false) :
    Text.NullFree j.literal := by
  match j with
  | .null => cases hnull
  | .bool b => exact keyLiteral_nullFree (k := .bool b) (by rintro _ ⟨⟩) rfl
  | .int n => exact keyLiteral_nullFree (k := .int n) (by rintro _ ⟨⟩) rfl
  | .float x => exact keyLiteral_nullFree (k := .float x) (by rintro _ ⟨⟩) rfl
  | .str s => exact quoted_nullFree (nullFree_str.mp h)
  | .arr items =>
    rw [literal]
    exact bracketed_nullFree (by decide) (by decide)
      (literals_nullFree items (nullFree_arr.mp h) (holdsNull_arr.mp hnull))
  | .obj fields =>
    rw [literal]
    exact bracketed_nullFree (by decide) (by decide)
      (fieldLiterals_nullFree fields (nullFree_obj.mp h) (holdsNull_obj.mp hnull))

theorem literals_nullFree (items : List Json) (h : ∀ j ∈ items, j.NullFree)
    (hnull : ∀ j ∈ items, j.holdsNull = false) : ∀ t ∈ literals items, Text.NullFree t := by
  match items with
  | [] => rintro _ ⟨⟩
  | j :: rest =>
    rw [List.forall_mem_cons] at h hnull
    rw [literals, List.forall_mem_cons]
    exact ⟨literal_nullFree j h.1 hnull.1, literals_nullFree rest h.2 hnull.2⟩

theorem fieldLiterals_nullFree (fields : List (Key × Json))
    (h : ∀ f ∈ fields, (∀ s, f.1 = .text s → Text.NullFree s) ∧ f.2.NullFree)
    (hnull : ∀ f ∈ fields, (ofKey f.1).isNull = false ∧ f.2.holdsNull = false) :
    ∀ t ∈ fieldLiterals fields, Text.NullFree t := by
  match fields with
  | [] => rintro _ ⟨⟩
  | (k, j) :: rest =>
    rw [List.forall_mem_cons] at h hnull
    rw [fieldLiterals, List.forall_mem_cons]
    refine ⟨?_, fieldLiterals_nullFree rest h.2 hnull.2⟩
    exact Text.NullFree.around (by decide) (keyLiteral_nullFree h.1.1 hnull.1.1)
      (literal_nullFree j h.1.2 hnull.1.2)

end

/-- A value shows the word of a missing value only if one of its texts has it or it holds a null. -/
theorem NullFree.display {j : Json} (h : j.NullFree) (hnull : j.holdsNull = false) :
    Text.NullFree j.display := by
  cases j with
  | str s => exact nullFree_str.mp h
  | _ => exact literal_nullFree _ h hnull

end Display

end ElementCompiler.Json
