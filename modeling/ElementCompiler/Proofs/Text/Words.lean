import ElementCompiler.Proofs.Text.Class
import ElementCompiler.Text.Case
import ElementCompiler.Text.Kebab
import ElementCompiler.Text.Literal
import Mathlib.Data.List.TakeWhile

set_option autoImplicit false

/-!
The words of a text. They are read from left to right, each by the first of four forms that reads
something where it stands, and no letter and no digit lies between them. The state machine behind kebab
case leaves a word exactly where such a word ends.
-/

namespace ElementCompiler.Text

/-- How many characters of the class begin the text, if there is one. -/
def runLength? (p : Char → Bool) (s : Text) : Option Nat :=
  match s.takeWhile (·.is p) with
  | [] => none
  | _ :: cs => some (cs.length + 1)

/-- Whether a capital with a small letter behind it begins the text. -/
def opensWord : Text → Bool
  | c :: cs => c.is Char.isUpper && headIsLower cs
  | [] => false

/-- Capitals before a capital that opens a word, as many as there can be. -/
def capitalsAhead? : Text → Option Nat
  | [] => none
  | c :: cs =>
    if c.is Char.isUpper then
      match capitalsAhead? cs with
      | some n => some (n + 1)
      | none => if opensWord cs then some 1 else none
    else none

/-- Small letters and digits, behind a capital if one is there. -/
def smallWord? : Text → Option Nat
  | [] => none
  | c :: cs =>
    let behind := if c.is Char.isUpper then runLength? isLowerOrDigit cs else none
    match behind with
    | some n => some (n + 1)
    | none => runLength? isLowerOrDigit (c :: cs)

/-- Capitals, and the digits behind them. -/
def numberedCapitals? (s : Text) : Option Nat :=
  (runLength? Char.isUpper s).map fun n => n + ((s.drop n).takeWhile (·.is Char.isDigit)).length

/-- The length of the word that begins the text: of the forms that a word can have the first one
    counts that reads something. -/
def wordLength? (s : Text) : Option Nat :=
  [capitalsAhead?, smallWord?, numberedCapitals?, runLength? Char.isDigit].findSome? fun form => form s

/-- The words of a text. Where no word begins a character is passed over. -/
def kebabWords : Text → List Text
  | [] => []
  | c :: cs =>
    match wordLength? (c :: cs) with
    | some n => (c :: cs).take n :: kebabWords (cs.drop (n - 1))
    | none => kebabWords cs
termination_by s => s.length
decreasing_by
  · rw [List.length_drop]
    exact Nat.lt_succ_of_le (Nat.sub_le _ _)
  · exact Nat.lt_succ_self _

section Characters

variable {c : Char} {s : Text}

theorem isLowerOrDigit_toLower_ofNat : ∀ n < 128, (Char.ofNat n).isAlphanum = true →
    isLowerOrDigit (Char.ofNat n).toLower = true := by decide

theorem isLowerOrDigit_toLower (h : c.isAlphanum = true) : isLowerOrDigit c.toLower = true := by
  have hlower := isLowerOrDigit_toLower_ofNat c.toNat (toNat_lt_of_isAlphanum h)
  rw [Char.ofNat_toNat] at hlower
  exact hlower h

theorem isAlphanum_eq (c : Char) : c.isAlphanum = (c.isUpper || isLowerOrDigit c) :=
  Bool.or_assoc _ _ _

theorem isAlphanum_of_isLowerOrDigit (h : isLowerOrDigit c = true) : c.isAlphanum = true := by
  rw [isAlphanum_eq, h, Bool.or_true]

theorem small_ofNat : ∀ n < 128, isLowerOrDigit (Char.ofNat n) = true →
    (Char.ofNat n).isUpper = false ∧ (Char.ofNat n).toLower = Char.ofNat n := by decide

theorem small_of_isLowerOrDigit (h : isLowerOrDigit c = true) : c.isUpper = false ∧ c.toLower = c := by
  have hsmall := small_ofNat c.toNat (toNat_lt_of_isAlphanum (isAlphanum_of_isLowerOrDigit h))
  rw [Char.ofNat_toNat] at hsmall
  exact hsmall h

theorem is_imp {p q : Char → Bool} (h : ∀ c, p c = true → q c = true) {d : CodePoint} (hd : d.is p = true) :
    d.is q = true := by
  cases d with
  | half n => cases hd
  | char d => exact h d hd

theorem isAlphanum_of_isUpper (h : c.isUpper = true) : c.isAlphanum = true := by
  rw [isAlphanum_eq, h, Bool.true_or]

theorem isLowerOrDigit_of_isLower (h : c.isLower = true) : isLowerOrDigit c = true := by
  rw [isLowerOrDigit, h, Bool.true_or]

theorem isLowerOrDigit_of_isDigit (h : c.isDigit = true) : isLowerOrDigit c = true := by
  rw [isLowerOrDigit, h, Bool.or_true]

theorem not_isUpper_of_isLowerOrDigit {d : CodePoint} (h : d.is isLowerOrDigit = true) :
    d.is Char.isUpper = false := by
  cases d with
  | half n => rfl
  | char d => exact (small_of_isLowerOrDigit h).1

/-- A capital of ASCII as its small letter. -/
def smallPoint : CodePoint → CodePoint
  | .char c => .char c.toLower
  | .half n => .half n

theorem lower_alphanumeric (h : ∀ c ∈ s, c.is Char.isAlphanum = true) : lower s = s.map smallPoint := by
  suffices hfrom : ∀ before, lowerFrom before s = s.map smallPoint from hfrom []
  induction s with
  | nil => intro before; rfl
  | cons c cs ih =>
    intro before
    obtain ⟨hc, hcs⟩ := List.forall_mem_cons.mp h
    cases c with
    | half n => cases hc
    | char c =>
      have hascii : c.toNat < 128 := toNat_lt_of_isAlphanum hc
      have hsigma : CodePoint.char c ≠ .char 'Σ' := by
        rintro ⟨⟩
        exact absurd hascii (by decide)
      rw [lowerFrom, if_neg hsigma, mapChar, lowerChar, if_pos hascii, ih hcs]
      rfl

end Characters

section Machine

variable {c : Char} {cs rest run : Text} {state : WordState}

theorem kebabFrom_skip {c : CodePoint} (h : c.is Char.isAlphanum = false) (state : WordState) (cs : Text) :
    kebabFrom state (c :: cs) = kebabFrom state.leave cs := by
  cases c with
  | half n => rfl
  | char c => rw [kebabFrom, if_neg (by simpa [CodePoint.is] using h)]

theorem kebabFrom_goesOn (h : c.isAlphanum = true) (hsplits : state.splitsAt c (headIsLower cs) = false) :
    kebabFrom state (.char c :: cs) = .char c.toLower :: kebabFrom (state.after c (headIsLower cs)) cs := by
  rw [kebabFrom, if_pos h]
  simp [hsplits]

/-- What is begun by the first character of a word. -/
def WordState.begun (c : Char) : WordState := if c.isUpper then .capital else .small

theorem kebabFrom_start (h : c.isAlphanum = true) (cs : Text) :
    kebabFrom .start (.char c :: cs) = .char c.toLower :: kebabFrom (.begun c) cs := by
  rw [kebabFrom, if_pos h]
  rfl

theorem kebabFrom_between (h : c.isAlphanum = true) (cs : Text) :
    kebabFrom .between (.char c :: cs) = .char '-' :: .char c.toLower :: kebabFrom (.begun c) cs := by
  rw [kebabFrom, if_pos h]
  rfl

/-- A word that does not go on is left, whatever has been read of it. -/
theorem kebabFrom_ended (hstate : state ≠ .start)
    (h : ∀ d ds, rest = .char d :: ds → d.isAlphanum = true → state.splitsAt d (headIsLower ds) = true) :
    kebabFrom state rest = kebabFrom .between rest := by
  have hleave : state.leave = .between := by cases state <;> first | rfl | exact absurd rfl hstate
  match rest with
  | [] => rfl
  | .half n :: ds => rw [kebabFrom, kebabFrom, hleave]; rfl
  | .char d :: ds =>
    cases hd : d.isAlphanum with
    | false =>
      have hskip := kebabFrom_skip (c := .char d) hd
      rw [hskip, hskip, hleave]
      rfl
    | true =>
      have hsplits := h d ds rfl hd
      rw [kebabFrom_between hd, kebabFrom, if_pos hd]
      simp [hsplits, hstate, WordState.after, WordState.begun]

/-- A state in which a word goes on by the characters of one class goes on up to the first other. -/
theorem kebabFrom_run {p : Char → Bool} (hstate : state ≠ .start) (hp : ∀ c, p c = true → isLowerOrDigit c = true)
    (hsplits : ∀ c lower, c.isAlphanum = true → state.splitsAt c lower = !p c)
    (hafter : ∀ c lower, p c = true → state.after c lower = state) (s : Text) :
    kebabFrom state s = s.takeWhile (·.is p) ++ kebabFrom .between (s.dropWhile (·.is p)) := by
  induction s with
  | nil => rfl
  | cons c cs ih =>
    cases hc : c.is p with
    | true =>
      cases c with
      | half n => cases hc
      | char c =>
        have hsmall := hp c hc
        have halnum := isAlphanum_of_isLowerOrDigit hsmall
        have hstays : state.splitsAt c (headIsLower cs) = false := by
          rw [hsplits c _ halnum]
          exact congrArg not hc
        rw [kebabFrom_goesOn halnum hstays, hafter c _ hc, (small_of_isLowerOrDigit hsmall).2,
          List.takeWhile_cons_of_pos hc, List.dropWhile_cons_of_pos hc, List.cons_append, ← ih]
    | false =>
      rw [List.takeWhile_cons_of_neg (by simp [hc]), List.dropWhile_cons_of_neg (by simp [hc]), List.nil_append]
      apply kebabFrom_ended hstate
      intro d ds heq hd
      obtain rfl := (List.cons.inj heq).1
      rw [hsplits d _ hd]
      exact congrArg not hc

theorem kebabFrom_small (s : Text) : kebabFrom .small s =
    s.takeWhile (·.is isLowerOrDigit) ++ kebabFrom .between (s.dropWhile (·.is isLowerOrDigit)) := by
  apply kebabFrom_run (by decide) (fun _ h => h)
  · intro c _ hc
    rw [isAlphanum_eq] at hc
    cases hsmall : isLowerOrDigit c with
    | true => exact (small_of_isLowerOrDigit hsmall).1
    | false =>
      rw [hsmall, Bool.or_false] at hc
      exact hc
  · intro c _ hc
    simp [WordState.after, WordState.splitsAt, (small_of_isLowerOrDigit hc).1]

theorem kebabFrom_numbered (s : Text) : kebabFrom .numbered s =
    s.takeWhile (·.is Char.isDigit) ++ kebabFrom .between (s.dropWhile (·.is Char.isDigit)) := by
  apply kebabFrom_run (by decide) (fun _ => isLowerOrDigit_of_isDigit)
  · intro c _ _
    rfl
  · intro c _ hc
    simp [WordState.after, WordState.splitsAt, hc]

/-- A capital goes on after capitals when no small letter is behind it. -/
theorem kebabFrom_capital (hstate : state = .capital ∨ state = .capitals) (hc : c.isUpper = true)
    (hcs : headIsLower cs = false) :
    kebabFrom state (.char c :: cs) = .char c.toLower :: kebabFrom .capitals cs := by
  have halnum := isAlphanum_of_isUpper hc
  have hstays : state.splitsAt c (headIsLower cs) = false := by
    rcases hstate with rfl | rfl <;> simp [WordState.splitsAt, hcs]
  have hafter : state.after c (headIsLower cs) = .capitals := by
    rcases hstate with rfl | rfl <;> simp [WordState.after, WordState.splitsAt, hcs, hc]
  rw [kebabFrom_goesOn halnum hstays, hafter]

theorem headIsLower_capital {c : CodePoint} (hc : c.is Char.isUpper = true) (cs : Text) :
    headIsLower (c :: cs) = false := by
  rw [headIsLower, Bool.eq_false_iff]
  intro hlower
  rw [not_isUpper_of_isLowerOrDigit (is_imp (fun _ => isLowerOrDigit_of_isLower) hlower)] at hc
  cases hc

theorem headIsLower_append (hrun : ∀ c ∈ run, c.is Char.isUpper = true) (hrest : headIsLower rest = false) :
    headIsLower (run ++ rest) = false := by
  cases run with
  | nil => exact hrest
  | cons c run => exact headIsLower_capital (hrun c List.mem_cons_self) _

/-- Capitals go on up to one that opens a word. -/
theorem kebabFrom_capitalsAhead {d : CodePoint} (hstate : state = .capital ∨ state = .capitals)
    (hrun : ∀ c ∈ run, c.is Char.isUpper = true) (hd : d.is Char.isUpper = true) (hrest : headIsLower rest = true) :
    kebabFrom state (run ++ d :: rest) = run.map smallPoint ++ kebabFrom .between (d :: rest) := by
  induction run generalizing state with
  | nil =>
    apply kebabFrom_ended (by rcases hstate with rfl | rfl <;> decide)
    intro e es heq _
    obtain ⟨rfl, rfl⟩ := List.cons.inj heq
    have hupper : e.isUpper = true := hd
    rcases hstate with rfl | rfl <;> simp [WordState.splitsAt, hupper, hrest]
  | cons c run ih =>
    obtain ⟨hc, hcs⟩ := List.forall_mem_cons.mp hrun
    cases c with
    | half n => cases hc
    | char c =>
      have hnext := headIsLower_append hcs (headIsLower_capital hd rest)
      rw [List.cons_append, kebabFrom_capital hstate hc hnext, ih (Or.inr rfl) hcs]
      rfl

/-- Capitals that open no word go on with the digits behind them. -/
theorem kebabFrom_numberedCapitals (hrun : ∀ c ∈ run, c.is Char.isUpper = true)
    (hupper : ∀ c ∈ rest.head?, c.is Char.isUpper = false) (hlower : headIsLower rest = false) :
    kebabFrom .capitals (run ++ rest) = run.map smallPoint ++
      (rest.takeWhile (·.is Char.isDigit) ++ kebabFrom .between (rest.dropWhile (·.is Char.isDigit))) := by
  induction run with
  | nil =>
    rw [List.nil_append, List.map_nil, List.nil_append, ← kebabFrom_numbered]
    match rest with
    | [] => rfl
    | .half n :: ds => rfl
    | .char d :: ds =>
      have hupper : d.isUpper = false := hupper (.char d) rfl
      have hlower : d.isLower = false := hlower
      cases hd : d.isDigit with
      | true =>
        have halnum : d.isAlphanum = true := by rw [Char.isAlphanum, hd, Bool.or_true]
        rw [kebabFrom_goesOn halnum (by simp [WordState.splitsAt, hupper]),
          kebabFrom_goesOn halnum (by simp [WordState.splitsAt, hd])]
        simp [WordState.after, WordState.splitsAt, hupper, hd]
      | false =>
        have hother : (CodePoint.char d).is Char.isAlphanum = false := by
          rw [CodePoint.is, isAlphanum_eq, isLowerOrDigit, hupper, hlower, hd]
          rfl
        rw [kebabFrom_skip hother, kebabFrom_skip hother]
        rfl
  | cons c run ih =>
    obtain ⟨hc, hcs⟩ := List.forall_mem_cons.mp hrun
    cases c with
    | half n => cases hc
    | char c =>
      have hnext := headIsLower_append hcs hlower
      rw [List.cons_append, kebabFrom_capital (Or.inr rfl) hc hnext, ih hcs]
      rfl

end Machine

section Forms

variable {p : Char → Bool} {c d : CodePoint} {cs run rest : Text}

theorem runLength?_cons (h : c.is p = true) (cs : Text) :
    runLength? p (c :: cs) = some ((cs.takeWhile (·.is p)).length + 1) := by
  rw [runLength?, List.takeWhile_cons_of_pos h]

theorem runLength?_other (h : c.is p = false) (cs : Text) : runLength? p (c :: cs) = none := by
  rw [runLength?, List.takeWhile_cons_of_neg (by simp [h])]

theorem takeWhile_of_head {q : CodePoint → Bool} (h : ∀ c ∈ rest.head?, q c = false) : rest.takeWhile q = [] := by
  cases rest with
  | nil => rfl
  | cons c cs => rw [List.takeWhile_cons_of_neg (by simp [h c rfl])]

theorem dropWhile_of_head {q : CodePoint → Bool} (h : ∀ c ∈ rest.head?, q c = false) : rest.dropWhile q = rest := by
  cases rest with
  | nil => rfl
  | cons c cs => rw [List.dropWhile_cons_of_neg (by simp [h c rfl])]

theorem runLength?_none (h : ∀ c ∈ rest.head?, c.is p = false) : runLength? p rest = none := by
  rw [runLength?, takeWhile_of_head h]

theorem capitalsAhead?_other (h : ∀ c ∈ rest.head?, c.is Char.isUpper = false) : capitalsAhead? rest = none := by
  cases rest with
  | nil => rfl
  | cons c cs => rw [capitalsAhead?, h c rfl, if_neg Bool.false_ne_true]

theorem opensWord_other (h : ∀ c ∈ rest.head?, c.is Char.isUpper = false) : opensWord rest = false := by
  cases rest with
  | nil => rfl
  | cons c cs => rw [opensWord, h c rfl, Bool.false_and]

theorem not_isUpper_of_headIsLower (h : headIsLower rest = true) :
    ∀ c ∈ rest.head?, c.is Char.isUpper = false := by
  cases rest with
  | nil => cases h
  | cons c cs =>
    intro d hd
    obtain rfl := Option.some.inj hd
    rw [Bool.eq_false_iff]
    intro hupper
    rw [headIsLower_capital hupper] at h
    cases h

theorem capitalsAhead?_opened (hc : c.is Char.isUpper = true) (hrun : ∀ e ∈ run, e.is Char.isUpper = true)
    (hd : d.is Char.isUpper = true) (hrest : headIsLower rest = true) :
    capitalsAhead? (c :: (run ++ d :: rest)) = some (run.length + 1) := by
  induction run generalizing c with
  | nil =>
    have hother := not_isUpper_of_headIsLower hrest
    have hnone : capitalsAhead? (d :: rest) = none := by
      rw [capitalsAhead?, if_pos hd, capitalsAhead?_other hother, opensWord_other hother]
      rfl
    rw [List.nil_append, capitalsAhead?, if_pos hc, hnone, opensWord, hd, hrest]
    rfl
  | cons e run ih =>
    obtain ⟨he, hes⟩ := List.forall_mem_cons.mp hrun
    rw [List.cons_append, capitalsAhead?, if_pos hc, ih he hes]
    rfl

theorem capitalsAhead?_unopened (hrun : ∀ e ∈ run, e.is Char.isUpper = true)
    (hupper : ∀ c ∈ rest.head?, c.is Char.isUpper = false) (hlower : headIsLower rest = false) :
    capitalsAhead? (run ++ rest) = none ∧ opensWord (run ++ rest) = false := by
  induction run with
  | nil => exact ⟨capitalsAhead?_other hupper, opensWord_other hupper⟩
  | cons e run ih =>
    obtain ⟨he, hes⟩ := List.forall_mem_cons.mp hrun
    obtain ⟨hnone, hopens⟩ := ih hes
    have hnext := headIsLower_append hes hlower
    constructor
    · rw [List.cons_append, capitalsAhead?, if_pos he, hnone, hopens]
      rfl
    · rw [List.cons_append, opensWord, hnext, Bool.and_false]

theorem map_smallPoint (h : ∀ c ∈ run, c.is isLowerOrDigit = true) : run.map smallPoint = run := by
  have hsame : ∀ c ∈ run, smallPoint c = id c := by
    intro c hc
    cases c with
    | half n => rfl
    | char c => exact congrArg CodePoint.char (small_of_isLowerOrDigit (h _ hc)).2
  rw [List.map_congr_left hsame, List.map_id]

end Forms

/-- The word that `c` begins goes on with the run, and is written so. -/
structure BeginsWord (c : Char) (cs run rest : Text) : Prop where
  cut : cs = run ++ rest
  length : wordLength? (.char c :: cs) = some (run.length + 1)
  letters : ∀ d ∈ run, d.is Char.isAlphanum = true
  written : kebabFrom (.begun c) cs = run.map smallPoint ++ kebabFrom .between rest

section Words

variable {c : Char} {d : CodePoint} {cs run rest : Text}

theorem is_isAlphanum_of_mem_takeWhile {p : Char → Bool} (hp : ∀ c, p c = true → c.isAlphanum = true) (s : Text) :
    ∀ d ∈ s.takeWhile (·.is p), d.is Char.isAlphanum = true :=
  fun _ hd => is_imp hp (List.mem_takeWhile_imp hd)

theorem beginsWord_small (hc : isLowerOrDigit c = true) (cs : Text) :
    BeginsWord c cs (cs.takeWhile (·.is isLowerOrDigit)) (cs.dropWhile (·.is isLowerOrDigit)) where
  cut := (List.takeWhile_append_dropWhile).symm
  length := by
    have hupper : (CodePoint.char c).is Char.isUpper = false := (small_of_isLowerOrDigit hc).1
    have hahead : capitalsAhead? (.char c :: cs) = none :=
      capitalsAhead?_other fun d hd => Option.some.inj hd ▸ hupper
    have hsmall : smallWord? (.char c :: cs) = some ((cs.takeWhile (·.is isLowerOrDigit)).length + 1) := by
      have hpoint : (CodePoint.char c).is isLowerOrDigit = true := hc
      rw [smallWord?, hupper]
      exact runLength?_cons hpoint cs
    rw [wordLength?, List.findSome?_cons, hahead, List.findSome?_cons, hsmall]
  letters := is_isAlphanum_of_mem_takeWhile (fun _ => isAlphanum_of_isLowerOrDigit) cs
  written := by
    rw [WordState.begun, (small_of_isLowerOrDigit hc).1, if_neg Bool.false_ne_true, kebabFrom_small,
      map_smallPoint fun d hd => List.mem_takeWhile_imp hd]

/-- A capital belongs to the small letters and digits behind it. -/
theorem beginsWord_capital (hc : c.isUpper = true) (hd : d.is isLowerOrDigit = true) (cs : Text) :
    BeginsWord c (d :: cs) (d :: cs.takeWhile (·.is isLowerOrDigit)) (cs.dropWhile (·.is isLowerOrDigit)) where
  cut := by rw [List.cons_append, List.takeWhile_append_dropWhile]
  length := by
    have hpoint : (CodePoint.char c).is Char.isUpper = true := hc
    have hother : ∀ e ∈ (d :: cs).head?, e.is Char.isUpper = false :=
      fun e he => Option.some.inj he ▸ not_isUpper_of_isLowerOrDigit hd
    have hahead : capitalsAhead? (.char c :: d :: cs) = none := by
      rw [capitalsAhead?, if_pos hpoint, capitalsAhead?_other hother, opensWord_other hother]
      rfl
    have hsmall : smallWord? (.char c :: d :: cs) = some ((d :: cs.takeWhile (·.is isLowerOrDigit)).length + 1) := by
      rw [smallWord?, hpoint, if_pos rfl, runLength?_cons hd]
      rfl
    rw [wordLength?, List.findSome?_cons, hahead, List.findSome?_cons, hsmall]
  letters := List.forall_mem_cons.mpr ⟨is_imp (fun _ => isAlphanum_of_isLowerOrDigit) hd,
    is_isAlphanum_of_mem_takeWhile (fun _ => isAlphanum_of_isLowerOrDigit) cs⟩
  written := by
    cases d with
    | half n => cases hd
    | char d =>
      obtain ⟨hupper, hsame⟩ := small_of_isLowerOrDigit hd
      have hstays : WordState.splitsAt .capital d (headIsLower cs) = false := by simp [WordState.splitsAt, hupper]
      have hafter : WordState.after .capital d (headIsLower cs) = .small := by
        simp [WordState.after, hstays, hupper]
      have hrest : ∀ e ∈ cs.takeWhile (·.is isLowerOrDigit), e.is isLowerOrDigit = true :=
        fun e he => List.mem_takeWhile_imp he
      rw [WordState.begun, hc, if_pos rfl, kebabFrom_goesOn (isAlphanum_of_isLowerOrDigit hd) hstays, hafter,
        kebabFrom_small, List.map_cons, map_smallPoint hrest, smallPoint, List.cons_append]

/-- A run of capitals leaves its last one to the small letters behind it. -/
theorem beginsWord_capitals (hc : c.isUpper = true) (hrun : ∀ e ∈ run, e.is Char.isUpper = true)
    (hd : d.is Char.isUpper = true) (hrest : headIsLower rest = true) :
    BeginsWord c (run ++ d :: rest) run (d :: rest) where
  cut := rfl
  length := by
    have hahead := capitalsAhead?_opened (c := .char c) hc hrun hd hrest
    rw [wordLength?, List.findSome?_cons, hahead]
  letters e he := is_imp (fun _ => isAlphanum_of_isUpper) (hrun e he)
  written := by
    rw [WordState.begun, hc, if_pos rfl]
    exact kebabFrom_capitalsAhead (Or.inl rfl) hrun hd hrest

/-- Capitals that open no word are a word with the digits behind them. -/
theorem beginsWord_numbered (hc : c.isUpper = true) (hrun : ∀ e ∈ run, e.is Char.isUpper = true)
    (hupper : ∀ e ∈ rest.head?, e.is Char.isUpper = false) (hlower : headIsLower rest = false)
    (hsmall : ∀ e ∈ (run ++ rest).head?, e.is isLowerOrDigit = false) :
    BeginsWord c (run ++ rest) (run ++ rest.takeWhile (·.is Char.isDigit)) (rest.dropWhile (·.is Char.isDigit)) where
  cut := by rw [List.append_assoc, List.takeWhile_append_dropWhile]
  length := by
    have hpoint : (CodePoint.char c).is Char.isUpper = true := hc
    have hother : (CodePoint.char c).is isLowerOrDigit = false := by
      rw [Bool.eq_false_iff]
      intro h
      rw [not_isUpper_of_isLowerOrDigit h] at hpoint
      cases hpoint
    have hall : ∀ e ∈ CodePoint.char c :: run, e.is Char.isUpper = true := List.forall_mem_cons.mpr ⟨hc, hrun⟩
    have hahead : capitalsAhead? (.char c :: (run ++ rest)) = none :=
      (capitalsAhead?_unopened hall hupper hlower).1
    have hnone : smallWord? (.char c :: (run ++ rest)) = none := by
      rw [smallWord?, hpoint, if_pos rfl, runLength?_none hsmall]
      exact runLength?_other hother _
    have hcapitals : numberedCapitals? (.char c :: (run ++ rest)) =
        some ((run ++ rest.takeWhile (·.is Char.isDigit)).length + 1) := by
      have htake : (run ++ rest).takeWhile (·.is Char.isUpper) = run := by
        rw [List.takeWhile_append_of_pos hrun, takeWhile_of_head hupper, List.append_nil]
      rw [numberedCapitals?, runLength?_cons hpoint, htake, Option.map_some, List.drop_succ_cons, List.drop_left,
        List.length_append, Nat.add_right_comm]
    rw [wordLength?, List.findSome?_cons, hahead, List.findSome?_cons, hnone, List.findSome?_cons, hcapitals]
  letters := List.forall_mem_append.mpr ⟨fun e he => is_imp (fun _ => isAlphanum_of_isUpper) (hrun e he),
    is_isAlphanum_of_mem_takeWhile
      (fun _ h => isAlphanum_of_isLowerOrDigit (isLowerOrDigit_of_isDigit h)) rest⟩
  written := by
    have hdigits : (rest.takeWhile (·.is Char.isDigit)).map smallPoint = rest.takeWhile (·.is Char.isDigit) :=
      map_smallPoint fun e he => is_imp (fun _ => isLowerOrDigit_of_isDigit) (List.mem_takeWhile_imp he)
    rw [WordState.begun, hc, if_pos rfl, List.map_append, hdigits, List.append_assoc]
    cases run with
    | nil =>
      have hdigit : ∀ e ∈ rest.head?, e.is Char.isDigit = false := by
        intro e he
        rw [Bool.eq_false_iff]
        intro h
        have hsame := is_imp (fun _ => isLowerOrDigit_of_isDigit) h
        rw [hsmall e he] at hsame
        cases hsame
      rw [takeWhile_of_head hdigit, dropWhile_of_head hdigit]
      apply kebabFrom_ended (by decide)
      intro d ds heq hd
      have hnone : d.isUpper = false ∧ isLowerOrDigit d = false := by
        obtain rfl : rest = .char d :: ds := heq
        exact ⟨hupper _ rfl, hsmall _ rfl⟩
      rw [isAlphanum_eq, hnone.1, hnone.2] at hd
      cases hd
    | cons e run =>
      obtain ⟨he, hes⟩ := List.forall_mem_cons.mp hrun
      cases e with
      | half n => cases he
      | char e =>
        have hnext := headIsLower_append hes hlower
        rw [List.cons_append, kebabFrom_capital (Or.inl rfl) he hnext, kebabFrom_numberedCapitals hes hupper hlower]
        rfl

/-- Every letter and every digit that no word goes on with begins one. -/
theorem exists_beginsWord (hc : c.isAlphanum = true) (cs : Text) : ∃ run rest, BeginsWord c cs run rest := by
  cases hsmall : isLowerOrDigit c with
  | true => exact ⟨_, _, beginsWord_small hsmall cs⟩
  | false =>
    have hupper : c.isUpper = true := by rwa [isAlphanum_eq, hsmall, Bool.or_false] at hc
    by_cases hhead : ∀ e ∈ cs.head?, e.is isLowerOrDigit = false
    · have hcut := List.takeWhile_append_dropWhile (p := (·.is Char.isUpper)) (l := cs)
      have hrun : ∀ e ∈ cs.takeWhile (·.is Char.isUpper), e.is Char.isUpper = true :=
        fun e he => List.mem_takeWhile_imp he
      have hrest : ∀ e ∈ (cs.dropWhile (·.is Char.isUpper)).head?, e.is Char.isUpper = false := by
        intro e he
        have hfirst := List.head?_dropWhile_not (·.is Char.isUpper) cs
        rw [he] at hfirst
        simpa using hfirst
      generalize cs.takeWhile (·.is Char.isUpper) = run, cs.dropWhile (·.is Char.isUpper) = rest at hcut hrun hrest
      subst hcut
      cases hlower : headIsLower rest with
      | false => exact ⟨_, _, beginsWord_numbered hupper hrun hrest hlower hhead⟩
      | true =>
        rcases List.eq_nil_or_concat run with rfl | ⟨front, d, rfl⟩
        · obtain _ | ⟨d, ds⟩ := rest
          · cases hlower
          · have hd : d.is isLowerOrDigit = true := is_imp (fun _ => isLowerOrDigit_of_isLower) hlower
            rw [List.nil_append, List.head?_cons] at hhead
            rw [hhead d rfl] at hd
            cases hd
        · rw [List.concat_eq_append, List.forall_mem_append, List.forall_mem_singleton] at hrun
          rw [List.concat_eq_append, List.append_assoc, List.singleton_append]
          exact ⟨_, _, beginsWord_capitals hupper hrun.1 hrun.2 hlower⟩
    · cases cs with
      | nil => exact absurd (fun e he => nomatch he) hhead
      | cons d ds =>
        have hd : d.is isLowerOrDigit = true := by simpa using hhead
        exact ⟨_, _, beginsWord_capital hupper hd ds⟩

end Words

section Reading

variable {c : CodePoint} {cs : Text}

theorem isAlphanum_of_wordLength? {n : Nat} (h : wordLength? (c :: cs) = some n) : c.is Char.isAlphanum = true := by
  by_contra hnot
  have hother : ∀ {p : Char → Bool}, (∀ d, p d = true → d.isAlphanum = true) → c.is p = false := by
    intro p hp
    rw [Bool.eq_false_iff]
    exact fun hc => hnot (is_imp hp hc)
  have hupper : c.is Char.isUpper = false := hother fun _ => isAlphanum_of_isUpper
  have hsmall : c.is isLowerOrDigit = false := hother fun _ => isAlphanum_of_isLowerOrDigit
  have hdigit : c.is Char.isDigit = false :=
    hother fun _ h => isAlphanum_of_isLowerOrDigit (isLowerOrDigit_of_isDigit h)
  have hnone : smallWord? (c :: cs) = none := by
    rw [smallWord?, hupper]
    exact runLength?_other hsmall cs
  rw [wordLength?, List.findSome?_cons, capitalsAhead?, hupper, if_neg Bool.false_ne_true, List.findSome?_cons,
    hnone, List.findSome?_cons, numberedCapitals?, runLength?_other hupper, Option.map_none, List.findSome?_cons,
    runLength?_other hdigit] at h
  cases h

/-- Induction over the words of a text and the characters between them. -/
theorem wordInduction {motive : Text → Prop} (nil : motive [])
    (other : ∀ c cs, c.is Char.isAlphanum = false → kebabWords (c :: cs) = kebabWords cs → motive cs → motive (c :: cs))
    (word : ∀ c run rest, c.isAlphanum = true → BeginsWord c (run ++ rest) run rest →
      kebabWords (.char c :: (run ++ rest)) = (.char c :: run) :: kebabWords rest → motive rest →
      motive (.char c :: (run ++ rest))) (s : Text) : motive s := by
  match s with
  | [] => exact nil
  | c :: cs =>
    cases hc : c.is Char.isAlphanum with
    | false =>
      have hnone : wordLength? (c :: cs) = none := by
        cases hlength : wordLength? (c :: cs) with
        | none => rfl
        | some n =>
          rw [isAlphanum_of_wordLength? hlength] at hc
          cases hc
      exact other c cs hc (by rw [kebabWords, hnone]) (wordInduction nil other word cs)
    | true =>
      cases c with
      | half n => cases hc
      | char c =>
        obtain ⟨run, rest, hword⟩ := exists_beginsWord hc cs
        have hshort : rest.length < (CodePoint.char c :: cs).length := by
          rw [hword.cut, List.length_cons, List.length_append]
          omega
        obtain rfl := hword.cut
        refine word c run rest hc hword ?_ (wordInduction nil other word rest)
        rw [kebabWords, hword.length]
        simp
termination_by s.length
decreasing_by
  · exact Nat.lt_succ_self _
  · assumption

/-- Words are texts of letters and digits. -/
theorem kebabWords_alphanumeric (s : Text) : ∀ w ∈ kebabWords s, w ≠ [] ∧ ∀ c ∈ w, c.is Char.isAlphanum = true := by
  induction s using wordInduction with
  | nil =>
    rw [kebabWords]
    exact List.forall_mem_nil _
  | other c cs _ hsame ih =>
    rw [hsame]
    exact ih
  | word c run rest hc hword hwords ih =>
    rw [hwords]
    exact List.forall_mem_cons.mpr
      ⟨⟨List.cons_ne_nil _ _, List.forall_mem_cons.mpr ⟨hc, hword.letters⟩⟩, ih⟩

/-- Between the words there is no letter and no digit. -/
theorem flatten_kebabWords (s : Text) : (kebabWords s).flatten = s.filter (·.is Char.isAlphanum) := by
  induction s using wordInduction with
  | nil =>
    rw [kebabWords]
    rfl
  | other c cs hc hsame ih => rw [hsame, ih, List.filter_cons_of_neg (by simp [hc])]
  | word c run rest hc hword hwords ih =>
    have hpoint : (CodePoint.char c).is Char.isAlphanum = true := hc
    rw [hwords, List.flatten_cons, ih, List.filter_cons_of_pos hpoint, List.filter_append,
      List.filter_eq_self.mpr hword.letters, List.cons_append]

end Reading

end ElementCompiler.Text
