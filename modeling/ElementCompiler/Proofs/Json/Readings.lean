import ElementCompiler.Json.Parser
import ElementCompiler.Text.Literal
import Mathlib.Data.List.Basic
import Mathlib.Data.List.TakeWhile

set_option autoImplicit false

/-!
What the JSON reader reads, as rules: one rule for each way in which a value, the fields of an object or
the items of an array go on. A reading follows the rules whatever its fuel, and the fuel of a text is
enough for every reading that they allow.
-/

namespace ElementCompiler.Json

open Text

section Lines

variable {c : CodePoint} {s t rest : Text}

/-- No line ends on the way from one place of a text to a later one. -/
def OnLine (s rest : Text) : Prop := ∃ run, s = run ++ rest ∧ CodePoint.char '\n' ∉ run

namespace OnLine

theorem refl (s : Text) : OnLine s s := ⟨[], rfl, List.not_mem_nil⟩

theorem trans (h : OnLine s t) (h' : OnLine t rest) : OnLine s rest := by
  obtain ⟨run, rfl, hrun⟩ := h
  obtain ⟨more, rfl, hmore⟩ := h'
  refine ⟨run ++ more, (List.append_assoc _ _ _).symm, ?_⟩
  rw [List.mem_append]
  exact fun hmem => hmem.elim hrun hmore

theorem cons (hc : c ≠ .char '\n') (h : OnLine s rest) : OnLine (c :: s) rest := by
  obtain ⟨run, rfl, hrun⟩ := h
  refine ⟨c :: run, rfl, ?_⟩
  rw [List.mem_cons]
  exact fun hmem => hmem.elim (fun heq => hc heq.symm) hrun

theorem dropWhile {p : CodePoint → Bool} (hp : p (.char '\n') = false) (s : Text) :
    OnLine s (s.dropWhile p) := by
  refine ⟨s.takeWhile p, List.takeWhile_append_dropWhile.symm, fun hmem => ?_⟩
  rw [List.mem_takeWhile_imp hmem] at hp
  cases hp

theorem length_le (h : OnLine s rest) : rest.length ≤ s.length := by
  obtain ⟨run, rfl, -⟩ := h
  rw [List.length_append]
  omega

end OnLine

/-- At least one character is read, and no line ends on the way. -/
def Advances (s rest : Text) : Prop := ∃ c cs, s = c :: cs ∧ c ≠ .char '\n' ∧ OnLine cs rest

theorem Advances.length_lt (h : Advances s rest) : rest.length < s.length := by
  obtain ⟨c, cs, rfl, -, hcs⟩ := h
  exact Nat.lt_succ_of_le hcs.length_le

theorem Advances.trans (h : Advances s t) (h' : OnLine t rest) : Advances s rest := by
  obtain ⟨c, cs, rfl, hc, hcs⟩ := h
  exact ⟨c, cs, rfl, hc, hcs.trans h'⟩

end Lines

section Strings

variable {c : CodePoint} {start digits done text rest cs : Text}

theorem ne_newline_of_hexValue? {n : Nat} (h : hexValue? c = some n) : c ≠ .char '\n' := by
  rintro rfl
  cases h

theorem ne_newline_of_hexValue4? {a b c d : CodePoint} {n : Nat} (h : hexValue4? a b c d = some n) :
    ∀ e ∈ [a, b, c, d], e ≠ .char '\n' := by
  simp only [hexValue4?, bind, Option.bind_eq_some_iff] at h
  obtain ⟨_, ha, _, hb, _, hc, _, hd, _⟩ := h
  simp only [List.forall_mem_cons]
  exact ⟨ne_newline_of_hexValue? ha, ne_newline_of_hexValue? hb, ne_newline_of_hexValue? hc,
    ne_newline_of_hexValue? hd, fun _ he => nomatch he⟩

theorem unicodeEscape?_line {x : CodePoint} {n : Nat} (h : unicodeEscape? digits = .ok (x, n)) :
    ∀ c ∈ digits.take n, c ≠ .char '\n' := by
  unfold unicodeEscape? at h
  split at h
  next a b c d r rs =>
    split at h
    next => cases h
    next m hm =>
      have hfour := ne_newline_of_hexValue4? hm
      split at h
      next =>
        split at h
        next e f g i next more _ hmore _ =>
          split at h
          next => cases h
          next low hl =>
            have hnext := ne_newline_of_hexValue4? hl
            by_cases hpair : isLowHalf low = true
            · rw [if_pos hpair] at h
              obtain ⟨-, rfl⟩ := Prod.mk.inj (Except.ok.inj h)
              rw [hmore]
              simp only [List.forall_mem_cons] at hfour hnext
              simp [hfour, hnext]
            · rw [if_neg hpair] at h
              obtain ⟨-, rfl⟩ := Prod.mk.inj (Except.ok.inj h)
              exact hfour
        next =>
          obtain ⟨-, rfl⟩ := Prod.mk.inj (Except.ok.inj h)
          exact hfour
      next =>
        obtain ⟨-, rfl⟩ := Prod.mk.inj (Except.ok.inj h)
        exact hfour
  next => cases h

theorem simpleEscape?_line {e x : CodePoint} (h : simpleEscape? e = some x) : e ≠ .char '\n' := by
  rintro rfl
  cases h

theorem readString_skipped {skip : Nat} (h : readString start skip done cs = .ok (text, rest))
    (hskip : ∀ c ∈ cs.take skip, c ≠ .char '\n') : Advances cs rest := by
  induction cs generalizing skip done with
  | nil => cases skip <;> cases h
  | cons c cs ih =>
    have hstep : ∀ {skip : Nat} {done : Text}, c ≠ .char '\n' → readString start skip done cs = .ok (text, rest) →
        (∀ d ∈ cs.take skip, d ≠ .char '\n') → Advances (c :: cs) rest := by
      intro skip done hc hread hline
      obtain ⟨d, ds, rfl, hd, hds⟩ := ih hread hline
      exact ⟨c, d :: ds, rfl, hc, hds.cons hd⟩
    cases skip with
    | succ skip =>
      rw [List.take_succ_cons, List.forall_mem_cons] at hskip
      exact hstep hskip.1 h hskip.2
    | zero =>
      rw [readString.eq_def] at h
      simp only at h
      split at h
      next hquote =>
        obtain ⟨-, rfl⟩ := Prod.mk.inj (Except.ok.inj h)
        subst hquote
        exact ⟨_, cs, rfl, by decide, .refl cs⟩
      next =>
      split at h
      next hback =>
        subst hback
        split at h
        next => cases h
        next digits =>
          cases hunit : unicodeEscape? digits with
          | error e => rw [hunit] at h; cases h
          | ok found =>
            obtain ⟨x, n⟩ := found
            rw [hunit] at h
            refine hstep (by decide) h ?_
            rw [List.take_succ_cons]
            exact List.forall_mem_cons.mpr ⟨by decide, unicodeEscape?_line hunit⟩
        next e more _ =>
          split at h
          next => cases h
          next x hx =>
            refine hstep (by decide) h ?_
            exact List.forall_mem_singleton.mpr (simpleEscape?_line hx)
      next =>
      split at h
      next => cases h
      next hcontrol =>
        refine hstep ?_ h (fun d hd => nomatch hd)
        rintro rfl
        exact hcontrol (by decide)

/-- A string stands on one line, with the quote that closes it. -/
theorem readString_line (h : readString start 0 done cs = .ok (text, rest)) : Advances cs rest :=
  readString_skipped h fun _ hmem => nomatch hmem

end Strings

section Scalars

variable {s rest : Text} {v : Json}

theorem isDigit_newline : isDigit (.char '\n') = false := by decide

theorem wholePart_cases (s : Text) : (∃ rest, s = .char '0' :: rest ∧ (wholePart s).2 = rest) ∨
    wholePart s = (s.takeWhile isDigit, s.dropWhile isDigit) := by
  unfold wholePart
  split
  next rest => exact .inl ⟨rest, rfl, rfl⟩
  next => exact .inr rfl

theorem wholePart_line (h : (wholePart s).1.isEmpty = false) : Advances s (wholePart s).2 := by
  rcases wholePart_cases s with ⟨rest, rfl, hrest⟩ | hdigits
  · rw [hrest]
    exact ⟨_, rest, rfl, by decide, .refl rest⟩
  · rw [hdigits] at h ⊢
    cases s with
    | nil => cases h
    | cons c cs =>
      cases hc : isDigit c with
      | false => simp [hc] at h
      | true =>
        refine ⟨c, cs, rfl, ?_, ?_⟩
        · rintro rfl
          rw [isDigit_newline] at hc
          cases hc
        · rw [List.dropWhile_cons_of_pos hc]
          exact .dropWhile isDigit_newline cs

theorem fractionPart_line (s : Text) : OnLine s (fractionPart s).2 := by
  unfold fractionPart
  split
  next d rest =>
    split
    next hd =>
      refine .cons (by decide) (.cons ?_ (.dropWhile isDigit_newline rest))
      rintro rfl
      rw [isDigit_newline] at hd
      cases hd
    next => exact .refl _
  next => exact .refl _

theorem signedDigits_line {negative : Bool} {n : Int} (h : signedDigits negative s = some (n, rest)) :
    OnLine s rest := by
  unfold signedDigits at h
  split at h
  next => cases h
  next d ds =>
    split at h
    next =>
      obtain ⟨-, rfl⟩ := Prod.mk.inj (Option.some.inj h)
      exact .dropWhile isDigit_newline _
    next => cases h

theorem exponentPart_line (s : Text) : OnLine s (exponentPart s).2 := by
  unfold exponentPart
  split
  next c cs =>
    split
    next hc =>
      have hmark : c ≠ .char '\n' := by
        rintro rfl
        cases hc
      simp only
      split
      next n r hfound =>
        refine .cons hmark ?_
        split at hfound
        next => exact .cons (by decide) (signedDigits_line hfound)
        next => exact .cons (by decide) (signedDigits_line hfound)
        next => exact signedDigits_line hfound
      next => exact .refl _
    next => exact .refl _
  next => exact .refl _

theorem readMagnitude?_line {negative : Bool} (h : readMagnitude? negative s = some (.ok (v, rest))) :
    Advances s rest := by
  simp only [readMagnitude?] at h
  split at h
  next => cases h
  next hwhole =>
    have hrest : rest = (exponentPart (fractionPart (wholePart s).2).2).2 := by
      split at h
      next =>
        have hmap := Option.some.inj h
        cases hnumber : wholeNumber negative (wholePart s).1 with
        | error e => rw [hnumber] at hmap; cases hmap
        | ok n =>
          rw [hnumber] at hmap
          exact (Prod.mk.inj (Except.ok.inj hmap)).2.symm
      next => exact (Prod.mk.inj (Except.ok.inj (Option.some.inj h))).2.symm
    rw [hrest]
    exact (wholePart_line (by simpa using hwhole)).trans ((fractionPart_line _).trans (exponentPart_line _))

theorem words_line : ∀ w ∈ words, ∃ c cs, w.1 = c :: cs ∧ CodePoint.char '\n' ∉ c :: cs := by
  intro w hw
  have hnames : ∀ text ∈ words.map Prod.fst, text ≠ [] ∧ CodePoint.char '\n' ∉ text := by decide
  obtain ⟨hne, hline⟩ := hnames w.1 (List.mem_map_of_mem hw)
  obtain ⟨c, cs, heq⟩ := List.exists_cons_of_ne_nil hne
  exact ⟨c, cs, heq, heq ▸ hline⟩

theorem readWord?_line (h : readWord? s = some (v, rest)) : Advances s rest := by
  obtain ⟨w, hw, hfound⟩ := List.exists_of_findSome?_eq_some h
  obtain ⟨tail, hafter, heq⟩ := Option.map_eq_some_iff.mp hfound
  obtain rfl : tail = rest := (Prod.mk.inj heq).2
  obtain ⟨c, cs, hw, hline⟩ := words_line w hw
  rw [List.mem_cons, not_or] at hline
  rw [eq_append_of_after? hafter, hw]
  exact ⟨c, cs ++ tail, rfl, fun hc => hline.1 hc.symm, cs, rfl, hline.2⟩

theorem readScalar_line (h : readScalar s = .ok (v, rest)) : Advances s rest := by
  unfold readScalar at h
  split at h
  next found hword =>
    obtain rfl := Except.ok.inj h
    exact readWord?_line hword
  next =>
    simp only at h
    have hfound : ∀ {found : Option (Except Failure (Json × Text))},
        found.getD (refuse .value s) = .ok (v, rest) → found = some (.ok (v, rest)) := by
      intro found hfound
      cases found with
      | none => cases hfound
      | some x => exact congrArg some hfound
    split at h
    next cs _ =>
      obtain ⟨c, ds, rfl, hc, hds⟩ := readMagnitude?_line (hfound h)
      exact ⟨_, _, rfl, by decide, hds.cons hc⟩
    next => exact readMagnitude?_line (hfound h)

end Scalars

section Rules

/-- What is being read: a value, or the rest of an object or of an array behind what has been read of it. -/
inductive ReadStage where
  | value
  | fields (done : Entries Json Key)
  | items (done : List Json)

namespace ReadStage

def read : ReadStage → Nat → Text → Except Failure (Json × Text)
  | .value, fuel => readValue fuel
  | .fields done, fuel => readFields fuel done
  | .items done, fuel => readItems fuel done

/-- Whether what is read is the inside of a value. -/
def isInside : ReadStage → Bool
  | .value => false
  | .fields _ | .items _ => true

/-- How much fuel is enough for a text. -/
def fuel : ReadStage → Text → Nat
  | .value, s => 2 * s.length + 1
  | .fields _, s | .items _, s => 2 * s.length + 2

end ReadStage

/-- The rules of reading: what a text is read as, and what follows it. -/
inductive Reads : ReadStage → Text → Json → Text → Prop where
  | text {body s rest : Text} : readString (.char '"' :: body) 0 [] body = .ok (s, rest) →
      Reads .value (.char '"' :: body) (.str s) rest
  | scalar {s rest : Text} {v : Json} : s.head? ≠ some (.char '"') → s.head? ≠ some (.char '\x7b') →
      s.head? ≠ some (.char '[') → readScalar s = .ok (v, rest) → Reads .value s v rest
  | noFields {body rest : Text} : skipSpace body = .char '\x7d' :: rest →
      Reads .value (.char '\x7b' :: body) (.obj []) rest
  | object {body rest : Text} {v : Json} : Reads (.fields []) (skipSpace body) v rest →
      Reads .value (.char '\x7b' :: body) v rest
  | noItems {body rest : Text} : skipSpace body = .char ']' :: rest →
      Reads .value (.char '[' :: body) (.arr []) rest
  | array {body rest : Text} {v : Json} : (skipSpace body).head? ≠ some (.char ']') →
      Reads (.items []) (skipSpace body) v rest → Reads .value (.char '[' :: body) v rest
  | lastField {done : Entries Json Key} {body key behind value after rest : Text} {v : Json} :
      readString (.char '"' :: body) 0 [] body = .ok (key, behind) → skipSpace behind = .char ':' :: value →
      Reads .value (skipSpace value) v after → skipSpace after = .char '\x7d' :: rest →
      Reads (.fields done) (.char '"' :: body) (.obj (Entries.put done (.text key) v)) rest
  | field {done : Entries Json Key} {body key behind value after more rest : Text} {v w : Json} :
      readString (.char '"' :: body) 0 [] body = .ok (key, behind) → skipSpace behind = .char ':' :: value →
      Reads .value (skipSpace value) v after → skipSpace after = .char ',' :: more →
      Reads (.fields (Entries.put done (.text key) v)) (skipSpace more) w rest →
      Reads (.fields done) (.char '"' :: body) w rest
  | lastItem {done : List Json} {s after rest : Text} {v : Json} : Reads .value s v after →
      skipSpace after = .char ']' :: rest → Reads (.items done) s (.arr (v :: done).reverse) rest
  | item {done : List Json} {s after more rest : Text} {v w : Json} : Reads .value s v after →
      skipSpace after = .char ',' :: more → Reads (.items (v :: done)) (skipSpace more) w rest →
      Reads (.items done) s w rest

variable {stage : ReadStage} {s rest : Text} {v : Json} {n : Nat}

theorem length_skipSpace_le (s : Text) : (skipSpace s).length ≤ s.length := List.length_dropWhile_le _ s

theorem length_of_skipSpace {c : CodePoint} (h : skipSpace s = c :: rest) : rest.length < s.length := by
  have hle := length_skipSpace_le s
  rw [h, List.length_cons] at hle
  exact hle

theorem length_behind {c : CodePoint} (h : skipSpace s = c :: rest) : (skipSpace rest).length < s.length :=
  (length_skipSpace_le rest).trans_lt (length_of_skipSpace h)

/-- The value of a field is shorter than what begins behind the quote of its name. -/
theorem length_fieldValue {start body key behind value : Text} {c : CodePoint}
    (hkey : readString start 0 [] body = .ok (key, behind)) (hcolon : skipSpace behind = c :: value) :
    (skipSpace value).length < body.length :=
  (length_behind hcolon).trans (readString_line hkey).length_lt

/-- Whatever is read is read by the rules. -/
theorem reads_of_read (h : stage.read n s = .ok (v, rest)) : Reads stage s v rest := by
  induction n generalizing stage s v rest with
  | zero => cases stage <;> cases h
  | succ n ih =>
    cases stage with
    | value =>
      change readValue (n + 1) s = _ at h
      rw [readValue.eq_def] at h
      simp only at h
      split at h
      next body =>
        cases hstring : readString (.char '"' :: body) 0 [] body with
        | error e => rw [hstring] at h; cases h
        | ok found =>
          rw [hstring] at h
          cases h
          exact .text hstring
      next body =>
        split at h
        next tail hspace =>
          cases h
          exact .noFields hspace
        next => exact .object (@ih (.fields []) _ _ _ h)
      next body =>
        split at h
        next tail hspace =>
          cases h
          exact .noItems hspace
        next hspace =>
          refine .array (fun hhead => ?_) (@ih (.items []) _ _ _ h)
          obtain ⟨tail, htail⟩ := List.head?_eq_some_iff.mp hhead
          exact hspace tail htail
      next hquote hbrace hbracket =>
        refine .scalar ?_ ?_ ?_ h <;> intro hhead <;> obtain ⟨tail, htail⟩ := List.head?_eq_some_iff.mp hhead
        · exact hquote tail htail
        · exact hbrace tail htail
        · exact hbracket tail htail
    | fields done =>
      change readFields (n + 1) done s = _ at h
      rw [readFields.eq_def] at h
      simp only at h
      split at h
      next body =>
        cases hstring : readString (.char '"' :: body) 0 [] body with
        | error e => rw [hstring] at h; cases h
        | ok found =>
          obtain ⟨key, behind⟩ := found
          rw [hstring] at h
          simp only [bind, Except.bind] at h
          split at h
          next value hcolon =>
            cases hvalue : readValue n (skipSpace value) with
            | error e => rw [hvalue] at h; cases h
            | ok found =>
              obtain ⟨w, after⟩ := found
              rw [hvalue] at h
              have hreads := @ih .value _ _ _ hvalue
              simp only at h
              split at h
              next tail hend =>
                cases h
                exact .lastField hstring hcolon hreads hend
              next more hcomma => exact .field hstring hcolon hreads hcomma (@ih (.fields _) _ _ _ h)
              next => cases h
          next => cases h
      next => cases h
    | items done =>
      change readItems (n + 1) done s = _ at h
      rw [readItems] at h
      cases hvalue : readValue n s with
      | error e => rw [hvalue] at h; cases h
      | ok found =>
        obtain ⟨w, after⟩ := found
        rw [hvalue] at h
        have hreads := @ih .value _ _ _ hvalue
        simp only [bind, Except.bind] at h
        split at h
        next tail hend =>
          cases h
          exact .lastItem hreads hend
        next more hcomma => exact .item hreads hcomma (@ih (.items _) _ _ _ h)
        next => cases h

theorem Reads.length_lt (h : Reads stage s v rest) : rest.length < s.length := by
  induction h with
  | text hstring => exact Nat.lt_succ_of_lt (readString_line hstring).length_lt
  | scalar _ _ _ hscalar => exact (readScalar_line hscalar).length_lt
  | noFields hspace | noItems hspace => exact Nat.lt_succ_of_lt (length_of_skipSpace hspace)
  | @object body _ _ _ ih | @array body _ _ _ _ ih =>
    exact Nat.lt_succ_of_le (ih.le.trans (length_skipSpace_le body))
  | lastField hkey hcolon _ hend ih =>
    have hvalue := length_fieldValue hkey hcolon
    exact Nat.lt_succ_of_lt ((length_of_skipSpace hend).trans (ih.trans hvalue))
  | field hkey hcolon _ hcomma _ ih ihrest =>
    have hvalue := length_fieldValue hkey hcolon
    exact Nat.lt_succ_of_lt (ihrest.trans ((length_behind hcomma).trans (ih.trans hvalue)))
  | lastItem _ hend ih => exact (length_of_skipSpace hend).trans ih
  | item _ hcomma _ ih ihrest => exact ihrest.trans ((length_behind hcomma).trans ih)

theorem Reads.begins_of_fields {done : Entries Json Key} (h : Reads (.fields done) s v rest) :
    ∃ body, s = .char '"' :: body := by
  cases h with
  | lastField => exact ⟨_, rfl⟩
  | field => exact ⟨_, rfl⟩

theorem ReadStage.exists_fuel (h : stage.fuel s ≤ n) : ∃ m, n = m + 1 := by
  cases n with
  | zero => cases stage <;> cases h
  | succ m => exact ⟨m, rfl⟩

/-- With one step less the fuel of a text is enough for every shorter text. -/
theorem ReadStage.fuel_shorter (next : ReadStage) {t : Text} (h : stage.fuel s ≤ n + 1) (ht : t.length < s.length) :
    next.fuel t ≤ n := by
  have hnext : next.fuel t ≤ 2 * t.length + 2 := by
    cases next with
    | value => exact Nat.le_succ _
    | fields => exact Nat.le_refl _
    | items => exact Nat.le_refl _
  have hstage : 2 * s.length + 1 ≤ stage.fuel s := by
    cases stage with
    | value => exact Nat.le_refl _
    | fields => exact Nat.le_succ _
    | items => exact Nat.le_succ _
  omega

/-- The fuel of a text is enough for every reading by the rules. -/
theorem Reads.read (h : Reads stage s v rest) (hn : stage.fuel s ≤ n) : stage.read n s = .ok (v, rest) := by
  obtain ⟨m, rfl⟩ := ReadStage.exists_fuel hn
  induction h generalizing m with
  | text hstring =>
    rw [ReadStage.read, readValue, hstring]
    rfl
  | scalar hquote hbrace hbracket hscalar =>
    rw [ReadStage.read, readValue.eq_def]
    simp only
    split
    next => exact absurd rfl hquote
    next => exact absurd rfl hbrace
    next => exact absurd rfl hbracket
    next => exact hscalar
  | noFields hspace | noItems hspace =>
    rw [ReadStage.read, readValue, hspace]
    rfl
  | @object body _ _ hfields ih =>
    have hfuel := ReadStage.fuel_shorter (.fields []) hn (Nat.lt_succ_of_le (length_skipSpace_le body))
    obtain ⟨k, rfl⟩ := ReadStage.exists_fuel hfuel
    have hread := ih k hfuel
    obtain ⟨inner, hinner⟩ := hfields.begins_of_fields
    rw [hinner] at hread
    rw [ReadStage.read, readValue, hinner]
    exact hread
  | @array body _ _ hbracket _ ih =>
    have hfuel := ReadStage.fuel_shorter (.items []) hn (Nat.lt_succ_of_le (length_skipSpace_le body))
    obtain ⟨k, rfl⟩ := ReadStage.exists_fuel hfuel
    have hread := ih k hfuel
    rw [ReadStage.read, readValue]
    split
    next heq => exact absurd (congrArg List.head? heq) hbracket
    next => exact hread
  | lastField hkey hcolon _ hend ih =>
    have hfuel := ReadStage.fuel_shorter .value hn (Nat.lt_succ_of_lt (length_fieldValue hkey hcolon))
    obtain ⟨k, rfl⟩ := ReadStage.exists_fuel hfuel
    have hread := ih k hfuel
    rw [ReadStage.read] at hread
    rw [ReadStage.read, readFields, hkey]
    simp only [bind, Except.bind, hcolon, hread, hend]
  | field hkey hcolon hvalue hcomma _ ih ihrest =>
    have hlength := Nat.lt_succ_of_lt (length_fieldValue hkey hcolon)
    have hfuel := ReadStage.fuel_shorter .value hn hlength
    obtain ⟨k, rfl⟩ := ReadStage.exists_fuel hfuel
    have hread := ih k hfuel
    have hrest := ihrest k
      (ReadStage.fuel_shorter _ hn ((length_behind hcomma).trans (hvalue.length_lt.trans hlength)))
    rw [ReadStage.read] at hread
    rw [ReadStage.read] at hrest
    rw [ReadStage.read, readFields, hkey]
    simp only [bind, Except.bind, hcolon, hread, hcomma, hrest]
  | @lastItem _ s _ _ _ _ hend ih =>
    have hfuel : ReadStage.value.fuel s ≤ m := Nat.le_of_succ_le_succ hn
    obtain ⟨k, rfl⟩ := ReadStage.exists_fuel hfuel
    have hread := ih k hfuel
    rw [ReadStage.read] at hread
    rw [ReadStage.read, readItems, hread]
    simp only [bind, Except.bind, hend]
  | @item _ s _ _ _ _ _ hvalue hcomma _ ih ihrest =>
    have hfuel : ReadStage.value.fuel s ≤ m := Nat.le_of_succ_le_succ hn
    obtain ⟨k, rfl⟩ := ReadStage.exists_fuel hfuel
    have hread := ih k hfuel
    have hrest := ihrest k (ReadStage.fuel_shorter _ hn ((length_behind hcomma).trans hvalue.length_lt))
    rw [ReadStage.read] at hread
    rw [ReadStage.read] at hrest
    rw [ReadStage.read, readItems, hread]
    simp only [bind, Except.bind, hcomma, hrest]

/-- A value is read at the start of a text exactly by the rules. -/
theorem readStart_eq_ok_iff : readStart s = .ok (v, rest) ↔ Reads .value s v rest :=
  ⟨@reads_of_read .value _ _ _ _, fun h => h.read (Nat.le_succ _)⟩

end Rules

end ElementCompiler.Json
