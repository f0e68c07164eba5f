import ElementCompiler.Proofs.Text.Indent
import ElementCompiler.Proofs.Text.Trim

set_option autoImplicit false

/-!
Braces of a text and the depth that they reach. A text is balanced when the depth ends where it
began and never falls below that; blanks at the ends and indentation have no part in it.
-/

namespace ElementCompiler.Text

/-- The depth after a character, unless it closes a brace that is not open. -/
def depthAt? (depth : Nat) (c : CodePoint) : Option Nat :=
  if c = '\x7b' then some (depth + 1)
  else if c = '\x7d' then if depth = 0 then none else some (depth - 1)
  else some depth

def depthAfter? (depth : Nat) (s : Text) : Option Nat := s.foldlM depthAt? depth

def IsBalanced (s : Text) : Prop := depthAfter? 0 s = some 0

/-- As many braces are opened as are closed. -/
def IsEven (s : Text) : Prop := s.count (.char '\x7b') = s.count (.char '\x7d')

/-- No character of the text is a brace. -/
def IsBraceFree (s : Text) : Prop := ∀ c ∈ s, c ≠ .char '\x7b' ∧ c ≠ .char '\x7d'

/-- What follows the brace that closes a block, from a place inside the block on. -/
def afterBlock? : Nat → Text → Option Text
  | _, [] => none
  | depth, c :: cs =>
    match depthAt? depth c with
    | some depth => afterBlock? depth cs
    | none => some cs

/-- If a text begins and ends with braces, apart from blanks, then the last closes the first. -/
def OuterBracesMatch (s : Text) : Prop :=
  ∀ cs, trim s = .char '\x7b' :: cs → cs.getLast? = some (.char '\x7d') → afterBlock? 0 cs = some []

variable {c : CodePoint} {s t : Text} {d e : Nat}

section Depth

theorem depthAfter?_cons (d : Nat) (c : CodePoint) (cs : Text) :
    depthAfter? d (c :: cs) = (depthAt? d c).bind (depthAfter? · cs) := rfl

theorem depthAfter?_append (d : Nat) (s t : Text) :
    depthAfter? d (s ++ t) = (depthAfter? d s).bind (depthAfter? · t) := List.foldlM_append

theorem depthAt?_other (h : c ≠ .char '\x7b' ∧ c ≠ .char '\x7d') (d : Nat) : depthAt? d c = some d := by
  rw [depthAt?, if_neg h.1, if_neg h.2]

theorem depthAfter?_braceFree (h : IsBraceFree s) (d : Nat) : depthAfter? d s = some d := by
  induction s with
  | nil => rfl
  | cons c cs ih =>
    obtain ⟨hc, hcs⟩ := List.forall_mem_cons.mp h
    rw [depthAfter?_cons, depthAt?_other hc, Option.bind_some, ih hcs]

/-- The depth counts what is opened and not closed. -/
theorem count_of_depthAfter? (h : depthAfter? d s = some e) :
    d + s.count (.char '\x7b') = e + s.count (.char '\x7d') := by
  induction s generalizing d with
  | nil =>
    obtain rfl := Option.some.inj h
    rfl
  | cons c cs ih =>
    rw [depthAfter?_cons, Option.bind_eq_some_iff] at h
    obtain ⟨m, hm, h⟩ := h
    have hcs := ih h
    rw [List.count_cons, List.count_cons]
    unfold depthAt? at hm
    split at hm
    next hopen =>
      obtain rfl := Option.some.inj hm
      subst hopen
      simp
      omega
    next hopen =>
      split at hm
      next hclose =>
        split at hm
        next => cases hm
        next hpos =>
          obtain rfl := Option.some.inj hm
          subst hclose
          simp
          omega
      next hclose =>
        obtain rfl := Option.some.inj hm
        simp [hopen, hclose]
        omega

theorem IsBalanced.isEven (h : IsBalanced s) : IsEven s := by
  have hcount := count_of_depthAfter? h
  rw [Nat.zero_add, Nat.zero_add] at hcount
  exact hcount

/-- An even part of a text gives back the depth at which it began. -/
theorem depthAfter?_even (hs : IsEven s) (h : depthAfter? d (s ++ t) = some e) : depthAfter? d t = some e := by
  rw [depthAfter?_append, Option.bind_eq_some_iff] at h
  obtain ⟨m, hm, h⟩ := h
  have hcount := count_of_depthAfter? hm
  rw [IsEven] at hs
  obtain rfl : d = m := by omega
  exact h

end Depth

section Block

theorem afterBlock?_of_some (h : depthAfter? d s = some e) (rest : Text) :
    afterBlock? d (s ++ rest) = afterBlock? e rest := by
  induction s generalizing d with
  | nil =>
    obtain rfl := Option.some.inj h
    rfl
  | cons c cs ih =>
    rw [depthAfter?_cons, Option.bind_eq_some_iff] at h
    obtain ⟨m, hm, h⟩ := h
    rw [List.cons_append, afterBlock?, hm]
    exact ih h

theorem afterBlock?_of_none (h : depthAfter? d s = none) (rest : Text) :
    ∃ t, afterBlock? d (s ++ rest) = some (t ++ rest) := by
  induction s generalizing d with
  | nil => cases h
  | cons c cs ih =>
    rw [depthAfter?_cons] at h
    rw [List.cons_append, afterBlock?]
    cases hm : depthAt? d c with
    | none => exact ⟨cs, rfl⟩
    | some m =>
      rw [hm, Option.bind_some] at h
      exact ih h

/-- A block ends with its last brace exactly when what it contains is balanced. -/
theorem afterBlock?_last : afterBlock? 0 (s ++ [.char '\x7d']) = some [] ↔ IsBalanced s := by
  unfold IsBalanced
  cases hs : depthAfter? 0 s with
  | none =>
    obtain ⟨t, ht⟩ := afterBlock?_of_none hs [.char '\x7d']
    rw [ht]
    simp
  | some e =>
    rw [afterBlock?_of_some hs]
    cases e with
    | zero => exact ⟨fun _ => rfl, fun _ => rfl⟩
    | succ e => exact ⟨nofun, nofun⟩

end Block

section Blanks

theorem isBraceFree_of_isBlankText (h : isBlankText s = true) : IsBraceFree s := by
  intro c hc
  have hblank := List.all_eq_true.mp h c hc
  refine ⟨?_, ?_⟩
  · rintro rfl
    exact absurd hblank (by decide)
  · rintro rfl
    exact absurd hblank (by decide)

theorem depthAfter?_trim (d : Nat) (s : Text) : depthAfter? d (trim s) = depthAfter? d s := by
  obtain ⟨front, back, hs, hfront, hback⟩ := exists_trim s
  have hfrontDepth := depthAfter?_braceFree (isBraceFree_of_isBlankText hfront)
  have hbackDepth := depthAfter?_braceFree (isBraceFree_of_isBlankText hback)
  calc depthAfter? d (trim s) = (depthAfter? d (trim s)).bind some := (Option.bind_fun_some _).symm
    _ = (depthAfter? d (trim s)).bind (depthAfter? · back) := by simp only [hbackDepth]
    _ = depthAfter? d (front ++ (trim s ++ back)) := by
      rw [depthAfter?_append, hfrontDepth, Option.bind_some, depthAfter?_append]
    _ = depthAfter? d s := by rw [← hs]

theorem isBalanced_trim : IsBalanced (trim s) ↔ IsBalanced s := by
  rw [IsBalanced, depthAfter?_trim, IsBalanced]

theorem count_braceFree (h : IsBraceFree s) : s.count (.char '\x7b') = 0 ∧ s.count (.char '\x7d') = 0 :=
  ⟨List.count_eq_zero.mpr fun hmem => (h _ hmem).1 rfl, List.count_eq_zero.mpr fun hmem => (h _ hmem).2 rfl⟩

theorem isEven_trim : IsEven (trim s) ↔ IsEven s := by
  obtain ⟨front, back, hs, hfront, hback⟩ := exists_trim s
  have hcounts := count_braceFree (isBraceFree_of_isBlankText hfront)
  have hcounts' := count_braceFree (isBraceFree_of_isBlankText hback)
  conv => rhs; rw [hs]
  simp [IsEven, List.count_append, hcounts, hcounts']

theorem depthAfter?_indentRest (width d : Nat) (s : Text) :
    depthAfter? d (indentRest width s) = depthAfter? d s := by
  induction s generalizing d with
  | nil => rfl
  | cons c cs ih =>
    have hpad : IsBraceFree (linePad width c cs) := fun p hp => by
      rw [(padsLines_indentRest width).blank c cs p hp]
      decide
    rw [indentRest_cons, depthAfter?_cons, depthAfter?_cons]
    congr 1
    funext m
    rw [depthAfter?_append, depthAfter?_braceFree hpad, Option.bind_some, ih]

end Blanks

end ElementCompiler.Text
