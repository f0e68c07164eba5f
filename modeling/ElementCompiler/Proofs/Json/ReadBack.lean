import ElementCompiler.Proofs.Json.Strings

set_option autoImplicit false

/-!
Values on one line of JSON are read back. Reading goes down the value as printing does, and fuel as
long as the text is enough at every place.
-/

namespace ElementCompiler.Json

open Text

/-- A value is read back as another wherever it is printed on a line. -/
structure ReadsBack (j k : Json) : Prop where
  noSpace : ∀ depth rest, skipSpace (printOnto .line depth j rest) = printOnto .line depth j rest
  longer : ∀ depth rest, rest.length < (printOnto .line depth j rest).length
  reads : ∀ n depth rest, (printOnto .line depth j rest).length ≤ n →
    readValue n (printOnto .line depth j rest) = .ok (k, rest)

theorem stringText_append (s rest : Text) :
    stringText true s ++ rest = .char '"' :: (s.flatMap (stringPoint true) ++ .char '"' :: rest) := by
  simp [stringText, ofString]

theorem ReadsBack.str (s : Text) : ReadsBack (.str s) (.str (joined s)) where
  noSpace := by
    intro depth rest
    change skipSpace (stringText true s ++ rest) = stringText true s ++ rest
    rw [stringText_append]
    rfl
  longer := by
    intro depth rest
    change rest.length < (stringText true s ++ rest).length
    rw [stringText_append]
    simp only [List.length_cons, List.length_append]
    omega
  reads := by
    intro n depth rest hn
    change (stringText true s ++ rest).length ≤ n at hn
    change readValue n (stringText true s ++ rest) = _
    rw [stringText_append] at hn ⊢
    cases n with
    | zero => simp at hn
    | succ n =>
      rw [readValue, readString_text]
      rfl

/-- The fields that are read for printed ones, after those already read. -/
def putAll (done : Entries Json Key) (fields : Entries Json) : Entries Json Key :=
  fields.foldl (fun es f => Entries.put es (.text (joined f.1)) f.2) done

/-- A field as it is printed: its key, its value, and the value read for it. -/
structure PrintedField where
  key : Text
  value : Json
  read : Json

def PrintedField.field (f : PrintedField) : Key × Json := (.text f.key, f.value)

def PrintedField.readField (f : PrintedField) : Text × Json := (f.key, f.read)

theorem skipSpace_blank (s : Text) : skipSpace (.char ' ' :: s) = skipSpace s := rfl

theorem skipSpace_stringText (s rest : Text) :
    skipSpace (stringText true s ++ rest) = stringText true s ++ rest := by
  rw [stringText_append]
  rfl

theorem readValue_brace (n : Nat) (s rest : Text) :
    readValue (n + 1) (.char '\x7b' :: (stringText true s ++ rest)) =
      readFields n [] (stringText true s ++ rest) := by
  rw [stringText_append]
  rfl

def PrintedField.text (depth : Nat) (f : PrintedField) (tail : Text) : Text :=
  stringText true f.key ++ (.char ':' :: .char ' ' :: printOnto .line depth f.value tail)

theorem printFields_cons (depth : Nat) (f : PrintedField) (fields : List (Key × Json)) (rest : Text) :
    printFields .line depth (f.field :: fields) rest =
      .char ',' :: .char ' ' :: f.text depth (printFields .line depth fields rest) := by
  simp [printFields, Format.line, Format.newline, ofString, keyText, PrintedField.field,
    PrintedField.text]

theorem printOnto_obj_cons (depth : Nat) (f : PrintedField) (fields : List (Key × Json))
    (rest : Text) :
    printOnto .line depth (.obj (f.field :: fields)) rest =
      .char '\x7b' :: f.text (depth + 1)
        (printFields .line (depth + 1) fields (.char '\x7d' :: rest)) := by
  simp [printOnto, Format.line, Format.newline, ofString, keyText, PrintedField.field,
    PrintedField.text]

theorem PrintedField.length_text (depth : Nat) (f : PrintedField) (tail : Text) :
    (printOnto .line depth f.value tail).length + 2 < (f.text depth tail).length := by
  rw [PrintedField.text, stringText_append]
  simp only [List.length_cons, List.length_append]
  omega

/-- One field is read, and then what follows it decides. -/
theorem readFields_field (f : PrintedField) (h : ReadsBack f.value f.read)
    (done : Entries Json Key) (n depth : Nat) (tail : Text)
    (hn : (f.text depth tail).length ≤ n + 1) :
    readFields (n + 1) done (f.text depth tail) =
      match skipSpace tail with
      | .char '\x7d' :: rest => .ok (.obj (putAll done [f.readField]), rest)
      | .char ',' :: rest => readFields n (putAll done [f.readField]) (skipSpace rest)
      | rest => refuse .comma rest := by
  have hlength := f.length_text depth tail
  rw [PrintedField.text, stringText_append, readFields, readString_text]
  change (readValue n (skipSpace (.char ' ' :: printOnto .line depth f.value tail)) >>= _) = _
  rw [skipSpace_blank, h.noSpace, h.reads n depth tail (by omega)]
  rfl

theorem readFields_print (first : PrintedField) (fields : List PrintedField)
    (h : ∀ f ∈ first :: fields, ReadsBack f.value f.read) (done : Entries Json Key) (n depth : Nat)
    (rest : Text) (hn : (first.text depth (printFields .line depth
      (fields.map PrintedField.field) (.char '\x7d' :: rest))).length ≤ n) :
    readFields n done (first.text depth
        (printFields .line depth (fields.map PrintedField.field) (.char '\x7d' :: rest))) =
      .ok (.obj (putAll done ((first :: fields).map PrintedField.readField)), rest) := by
  have hfirst := h first List.mem_cons_self
  have hlength := first.length_text depth
    (printFields .line depth (fields.map PrintedField.field) (.char '\x7d' :: rest))
  obtain ⟨m, rfl⟩ : ∃ m, n = m + 1 := ⟨n - 1, by omega⟩
  rw [readFields_field first hfirst done m depth _ hn]
  induction fields generalizing first done m with
  | nil => rfl
  | cons f fs ih =>
    have hfs : ∀ g ∈ f :: fs, ReadsBack g.value g.read :=
      fun g hg => h g (List.mem_cons_of_mem first hg)
    have hskip : ∀ tail, skipSpace (f.text depth tail) = f.text depth tail :=
      fun tail => skipSpace_stringText f.key _
    have hlonger := hfirst.longer depth
      (printFields .line depth ((f :: fs).map PrintedField.field) (.char '\x7d' :: rest))
    have hnext := f.length_text depth
      (printFields .line depth (fs.map PrintedField.field) (.char '\x7d' :: rest))
    rw [List.map_cons, printFields_cons] at hn hlength hlonger ⊢
    simp only [List.length_cons] at hlonger
    obtain ⟨k, rfl⟩ : ∃ k, m = k + 1 := ⟨m - 1, by omega⟩
    have hstep := ih f hfs (putAll done [first.readField]) (hfs f List.mem_cons_self) hnext k (by omega)
    change readFields (k + 1) (putAll done [first.readField]) (skipSpace (.char ' ' :: _)) = _
    rw [skipSpace_blank, hskip, readFields_field f (hfs f List.mem_cons_self) _ k depth _ (by omega)]
    exact hstep

theorem length_printFields (fields : List PrintedField)
    (h : ∀ f ∈ fields, ReadsBack f.value f.read) (depth : Nat) (rest : Text) :
    rest.length ≤ (printFields .line depth (fields.map PrintedField.field) rest).length := by
  induction fields with
  | nil => exact Nat.le_refl _
  | cons f fs ih =>
    have hfs := ih fun g hg => h g (List.mem_cons_of_mem f hg)
    have hlonger := (h f List.mem_cons_self).longer depth
      (printFields .line depth (fs.map PrintedField.field) rest)
    have hlength := f.length_text depth (printFields .line depth (fs.map PrintedField.field) rest)
    rw [List.map_cons, printFields_cons]
    simp only [List.length_cons]
    omega

/-- An object whose values are read back is read back, a key given twice with its last value. -/
theorem ReadsBack.obj (fields : List PrintedField) (h : ∀ f ∈ fields, ReadsBack f.value f.read) :
    ReadsBack (.obj (fields.map PrintedField.field))
      (.obj (putAll [] (fields.map PrintedField.readField))) where
  noSpace := by
    intro depth rest
    cases fields with
    | nil => rfl
    | cons f fs => rfl
  longer := by
    intro depth rest
    cases fields with
    | nil => exact Nat.lt_of_lt_of_le (Nat.lt_succ_self _) (Nat.le_succ _)
    | cons f fs =>
      have hfs := length_printFields fs (fun g hg => h g (List.mem_cons_of_mem f hg)) (depth + 1)
        (.char '\x7d' :: rest)
      have hlonger := (h f List.mem_cons_self).longer (depth + 1)
        (printFields .line (depth + 1) (fs.map PrintedField.field) (.char '\x7d' :: rest))
      have hlength := f.length_text (depth + 1)
        (printFields .line (depth + 1) (fs.map PrintedField.field) (.char '\x7d' :: rest))
      rw [List.map_cons, printOnto_obj_cons]
      simp only [List.length_cons] at hfs ⊢
      omega
  reads := by
    intro n depth rest hn
    cases fields with
    | nil =>
      cases n with
      | zero => exact absurd hn (by simp [printOnto, ofString])
      | succ n => rfl
    | cons f fs =>
      rw [List.map_cons, printOnto_obj_cons] at hn ⊢
      cases n with
      | zero => simp at hn
      | succ n =>
        rw [PrintedField.text, readValue_brace, ← PrintedField.text]
        exact readFields_print f fs h [] n (depth + 1) rest (by simpa using hn)

theorem ReadsBack.readStart {j k : Json} (h : ReadsBack j k) :
    Json.readStart (Json.print .line j) = .ok (k, []) :=
  h.reads _ 0 [] (by change _ ≤ 2 * (printOnto .line 0 j []).length + 2; omega)

/-- A property of texts that is kept when the value is printed before the text. -/
def Keeps (p : Text → Prop) (j : Json) : Prop :=
  ∀ depth rest, p rest → p (printOnto .line depth j rest)

/-- The characters around keys and values. -/
def frame : Text := "\x7b\x7d:, \""

section Keeps

variable {p : Text → Prop} (hframe : ∀ c ∈ frame, ∀ rest, p rest → p (c :: rest))
include hframe

theorem stringText_keeps {s : Text}
    (hs : ∀ rest, p rest → p (s.flatMap (stringPoint true) ++ .char '"' :: rest)) {rest : Text}
    (h : p rest) : p (stringText true s ++ rest) := by
  rw [stringText_append]
  exact hframe _ (by decide) _ (hs rest h)

theorem PrintedField.text_keeps (f : PrintedField)
    (hkey : ∀ rest, p rest → p (f.key.flatMap (stringPoint true) ++ .char '"' :: rest))
    (hvalue : Keeps p f.value) (depth : Nat) {rest : Text} (h : p rest) : p (f.text depth rest) :=
  stringText_keeps hframe hkey
    (hframe _ (by decide) _ (hframe _ (by decide) _ (hvalue depth rest h)))

theorem printFields_keeps (fields : List PrintedField)
    (h : ∀ f ∈ fields, Keeps p f.value ∧
      ∀ rest, p rest → p (f.key.flatMap (stringPoint true) ++ .char '"' :: rest))
    (depth : Nat) {rest : Text} (hrest : p rest) :
    p (printFields .line depth (fields.map PrintedField.field) rest) := by
  induction fields with
  | nil => exact hrest
  | cons f fs ih =>
    have hf := h f List.mem_cons_self
    have hfs := ih fun g hg => h g (List.mem_cons_of_mem f hg)
    rw [List.map_cons, printFields_cons]
    exact hframe _ (by decide) _ (hframe _ (by decide) _ (f.text_keeps hframe hf.2 hf.1 depth hfs))

/-- What holds of the closing brace with the text behind it holds of the whole object before that
    text. -/
theorem printOnto_obj_keeps (fields : List PrintedField)
    (h : ∀ f ∈ fields, Keeps p f.value ∧
      ∀ rest, p rest → p (f.key.flatMap (stringPoint true) ++ .char '"' :: rest))
    (depth : Nat) {rest : Text} (hclose : p (.char '\x7d' :: rest)) :
    p (printOnto .line depth (.obj (fields.map PrintedField.field)) rest) := by
  cases fields with
  | nil => exact hframe _ (by decide) _ hclose
  | cons f fs =>
    have hf := h f List.mem_cons_self
    have hfs := printFields_keeps hframe fs (fun g hg => h g (List.mem_cons_of_mem f hg))
      (depth + 1) hclose
    rw [List.map_cons, printOnto_obj_cons]
    exact hframe _ (by decide) _ (f.text_keeps hframe hf.2 hf.1 (depth + 1) hfs)

end Keeps

end ElementCompiler.Json
