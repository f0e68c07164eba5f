import ElementCompiler.Proofs.Snippet.DefinitionHead
import ElementCompiler.Proofs.Snippet.Passes
import ElementCompiler.Proofs.Text.Lines
import Mathlib.Algebra.Order.BigOperators.Group.List
import Mathlib.Algebra.Order.Group.Nat

set_option autoImplicit false

/-!
The parameters of a method under relocation. Relocation has no scopes: a parameter is no declaration
to it, neither in the parameter list nor in the body, so a parameter with the name of a member takes
the receptor like the member does.
-/

namespace ElementCompiler.Snippet

open Text

/-- A whole name behind the receptor, when it is one of the names. -/
def placed (lead : Text) (names : List Text) (name : Text) : Text :=
  if names.contains name then lead ++ name else name

section Placing

theorem headIs_point {s : Text} (h : headIs isJoined s = false) : headIs (· == .char '.') s = false := by
  cases s with
  | nil => rfl
  | cons c cs => exact (Bool.or_eq_false_iff.mp h).2

variable {lead : Text} {names : List Text}

/-- Characters between names are passed over. -/
theorem placeReceptors_others {run : Text} (hrun : ∀ c ∈ run, continuesName c = false)
    (before rest : Text) : placeReceptors lead names before (run ++ rest) =
      run ++ placeReceptors lead names (run.reverse ++ before) rest := by
  induction run generalizing before with
  | nil => rfl
  | cons c cs ih =>
    rw [List.forall_mem_cons] at hrun
    rw [List.cons_append, placeReceptors_other _ _ _ hrun.1, ih hrun.2]
    simp

theorem placeReceptors_used {before name rest : Text} (hname : IsName name)
    (hrest : headIs continuesName rest = false) (hpoint : headIs (· == .char '.') before = false)
    (hused : isBindingPosition before rest = false) :
    placeReceptors lead names before (name ++ rest) =
      placed lead names name ++ placeReceptors lead names (name.reverse ++ before) rest := by
  rw [placeReceptors_name _ _ _ hname hrest, takesReceptor, hpoint, hused, placed]
  simp

theorem placeReceptors_declared {before name rest : Text} (hname : IsName name)
    (hrest : headIs continuesName rest = false) (hbinding : isBindingPosition before rest = true) :
    placeReceptors lead names before (name ++ rest) =
      name ++ placeReceptors lead names (name.reverse ++ before) rest := by
  rw [placeReceptors_name _ _ _ hname hrest, takesReceptor, hbinding]
  simp

end Placing

section Braces

variable {p : CodePoint → Bool} {c : CodePoint}

theorem dropWhile_append_cons (hc : p c = false) (near s : Text) :
    (near ++ c :: s).dropWhile p = near.dropWhile p ++ c :: s := by
  induction near with
  | nil => simp [hc]
  | cons d ds ih => by_cases hd : p d = true <;> simp [hd, ih]

theorem headIs_append_cons (p : CodePoint → Bool) (near s t : Text) :
    headIs p (near ++ c :: s) = headIs p (near ++ c :: t) := by
  cases near <;> rfl

/-- Behind an opening brace nothing is looked at. -/
theorem isBindingPosition_brace (near s t after : Text) :
    isBindingPosition (near ++ .char '\x7b' :: s) after =
      isBindingPosition (near ++ .char '\x7b' :: t) after := by
  have hblank : CodePoint.is isBlank (.char '\x7b') = false := by decide
  have hword : CodePoint.is isWord (.char '\x7b') = false := by decide
  have hdeclares : ∀ s : Text, declares ((near ++ .char '\x7b' :: s).dropWhile (·.is isBlank)) =
      declares (near.dropWhile (·.is isBlank)) := fun s => by
    have hstop : headIs (·.is isWord) (.char '\x7b' :: s) = false := hword
    rw [dropWhile_append_cons hblank, declares, declares, takeWhile_append_of_headIs _ hstop]
  have htail : isKeyTail (near ++ .char '\x7b' :: s) = isKeyTail (near ++ .char '\x7b' :: t) := by
    rw [isKeyTail, isKeyTail, dropWhile_append_cons hblank, dropWhile_append_cons hblank]
    exact headIs_append_cons _ _ s t
  have hall : ∀ s : Text, (near ++ .char '\x7b' :: s).all (·.is isBlank) = false := fun s => by
    rw [List.all_append, List.all_cons, hblank, Bool.false_and, Bool.and_false]
  rw [isBindingPosition, isBindingPosition, endsInWord_eq_declares, endsInWord_eq_declares, hdeclares,
    hdeclares, htail, hall, hall, headIs_append_cons _ _ s t]

theorem placeReceptors_brace (lead : Text) (names : List Text) (near s t run : Text) :
    placeReceptors lead names (near ++ .char '\x7b' :: s) run =
      placeReceptors lead names (near ++ .char '\x7b' :: t) run := by
  induction run using nameInduction generalizing near with
  | nil => rw [placeReceptors_nil, placeReceptors_nil]
  | other c cs hc ih =>
    rw [placeReceptors_other _ _ _ hc, placeReceptors_other _ _ _ hc]
    exact congrArg (c :: ·) (ih (c :: near))
  | name name rest hname hrest ih =>
    have hstep := ih (name.reverse ++ near)
    simp only [List.append_assoc] at hstep
    rw [placeReceptors_name _ _ _ hname hrest, placeReceptors_name _ _ _ hname hrest, hstep,
      takesReceptor, takesReceptor, isBindingPosition_brace near s t, headIs_append_cons _ _ s t]

/-- A block is relocated by itself, whatever stands before it. -/
theorem placeReceptors_block (lead : Text) (names : List Text) {gap : Text}
    (hgap : isBlankText gap = true) (before run : Text) :
    placeReceptors lead names before (gap ++ .char '\x7b' :: run) =
      gap ++ placeReceptors lead names [] (.char '\x7b' :: run) := by
  have hbrace : continuesName (.char '\x7b') = false := by decide
  rw [placeReceptors_others (continuesName_of_blankText hgap), placeReceptors_other _ _ _ hbrace,
    placeReceptors_other _ _ _ hbrace]
  exact congrArg (gap ++ .char '\x7b' :: ·) (placeReceptors_brace lead names [] _ [] run)

end Braces

/-- A plain parameter with the blanks around it. -/
structure Parameter where
  front : Text
  name : Text
  back : Text
  isName : IsName name
  blank : isBlankText front = true ∧ isBlankText back = true

namespace Parameter

def text (p : Parameter) : Text := p.front ++ (p.name ++ p.back)

/-- The parameter as it is written when a name that is used takes the receptor. -/
def relocated (lead : Text) (names : List Text) (p : Parameter) : Text :=
  p.front ++ (placed lead names p.name ++ p.back)

variable {lead : Text} {names : List Text} {c d : CodePoint}

/-- Behind what opens a parameter, and before what ends it, a name is not declared. -/
theorem isBindingPosition_parameter {space gap : Text} (hspace : isBlankText space = true)
    (hgap : isBlankText gap = true) (hc : c = '(' ∨ c = ',') (hd : d = ')' ∨ d = ',') (s t : Text) :
    isBindingPosition (space.reverse ++ c :: s) (gap ++ d :: t) = false := by
  have hblank : c.is isBlank = false ∧ c.is isWord = false := by
    rcases hc with rfl | rfl <;> decide
  have hdrop : (space.reverse ++ c :: s).dropWhile (·.is isBlank) = c :: s := by
    rw [dropBlank_append ((isBlankText_reverse _).trans hspace), List.dropWhile_cons_of_neg (by simp [hblank.1])]
  have hdeclares : declares (c :: s) = false := by
    rw [declares, List.takeWhile_cons_of_neg (by simp [hblank.2])]
    decide
  have hkey : isKeyHead (gap ++ d :: t) = false := by
    have hdBlank : d.is isBlank = false := by rcases hd with rfl | rfl <;> decide
    unfold isKeyHead
    rw [dropBlank_append hgap, List.dropWhile_cons_of_neg (by simp [hdBlank])]
    rcases hd with rfl | rfl <;> rfl
  rw [isBindingPosition, endsInWord_eq_declares, hdrop, hdeclares, hkey, List.all_append, List.all_cons,
    hblank.1]
  simp

variable (lead names) in
theorem placeReceptors_text (p : Parameter) (hc : c = '(' ∨ c = ',') (hd : d = ')' ∨ d = ',')
    (s t : Text) : ∃ before, placeReceptors lead names (c :: s) (p.text ++ d :: t) =
      p.relocated lead names ++ d :: placeReceptors lead names (d :: before) t := by
  have hend : isJoined d = false := by rcases hd with rfl | rfl <;> decide
  have hpoint : headIs (· == .char '.') (p.front.reverse ++ c :: s) = false := by
    have hstart : isJoined c = false := by rcases hc with rfl | rfl <;> decide
    exact headIs_point (headIs_blank ((isBlankText_reverse _).trans p.blank.1) (.inr hstart))
  have hrest : headIs continuesName (p.back ++ d :: t) = false :=
    headIs_continuesName (headIs_blank p.blank.2 (.inr hend))
  refine ⟨p.back.reverse ++ (p.name.reverse ++ (p.front.reverse ++ c :: s)), ?_⟩
  simp only [text, relocated, List.append_assoc]
  rw [placeReceptors_others (continuesName_of_blankText p.blank.1), placeReceptors_used p.isName hrest hpoint
      (isBindingPosition_parameter p.blank.1 p.blank.2 hc hd s t),
    placeReceptors_others (continuesName_of_blankText p.blank.2),
    placeReceptors_other _ _ _ (Bool.or_eq_false_iff.mp hend).1]

theorem isPlain_text (p : Parameter) : ∀ c ∈ p.text, isNotParen c = true ∧ isNotQuote c = true := by
  have hparen : ∀ c : CodePoint, c.is isBlank = true ∨ continuesName c = true → isNotParen c = true := by
    intro c h
    rw [isNotParen, Bool.and_eq_true, bne_iff_ne, bne_iff_ne]
    constructor <;> rintro rfl <;> revert h <;> decide
  have hblank : ∀ {s : Text}, isBlankText s = true → ∀ c ∈ s, isNotParen c = true ∧ isNotQuote c = true :=
    fun hs c hc => ⟨hparen c (.inl (isBlank_of_mem hs c hc)), isNotQuote_of_blankText hs c hc⟩
  have hname : ∀ c ∈ p.name, isNotParen c = true ∧ isNotQuote c = true := fun c hc =>
    ⟨hparen c (.inr (p.isName.2 c hc)), isNotQuote_of_continuesName (p.isName.2 c hc)⟩
  simp only [text, List.forall_mem_append]
  exact ⟨hblank p.blank.1, hname, hblank p.blank.2⟩

variable (lead names) in
/-- The parameters of a list, each written as one that is used. -/
theorem placeReceptors_parameters (ps : List Parameter) (hc : c = '(' ∨ c = ',') (s t : Text) :
    ∃ before, placeReceptors lead names (c :: s) (join "," (ps.map text) ++ .char ')' :: t) =
      join "," (ps.map (relocated lead names)) ++ .char ')' :: placeReceptors lead names before t := by
  induction ps generalizing c s with
  | nil => exact ⟨_, placeReceptors_other lead names _ (by decide) t⟩
  | cons p ps ih =>
    cases ps with
    | nil =>
      obtain ⟨before, hp⟩ := p.placeReceptors_text lead names hc (.inl rfl) s t
      exact ⟨_, hp⟩
    | cons q ps =>
      have hcomma : ofString "," = [.char ','] := rfl
      obtain ⟨before, hp⟩ := p.placeReceptors_text lead names hc (.inr rfl) s
        (join "," ((q :: ps).map text) ++ .char ')' :: t)
      obtain ⟨before', hrest⟩ := ih (.inr rfl) before
      refine ⟨before', ?_⟩
      simp only [List.map_cons, join_cons_cons, hcomma, List.append_assoc, List.cons_append,
        List.nil_append] at hp hrest ⊢
      rw [hp, hrest]

end Parameter

namespace DefinitionHead

/-- The head with the receptor before its modifier, when that is one of the names. -/
def relocated (lead : Text) (names : List Text) (h : DefinitionHead) (name : Text) : Text :=
  h.margin ++ (placed lead names h.modifier ++ (h.space ++ (name ++ (h.gap ++ [.char '(']))))

variable {lead : Text} {names : List Text} {name : Text} (h : DefinitionHead)

variable (lead names) in
theorem placeReceptors_defined (hname : IsName name) {before : Text} (t : Text)
    (hbinding : isBindingPosition before (h.gap ++ .char '(' :: t) = true) : ∃ before',
    placeReceptors lead names before (name ++ (h.gap ++ .char '(' :: t)) =
      name ++ (h.gap ++ .char '(' :: placeReceptors lead names (.char '(' :: before') t) := by
  refine ⟨h.gap.reverse ++ (name.reverse ++ before), ?_⟩
  rw [placeReceptors_declared hname (headIs_parameters t) hbinding,
    placeReceptors_others (continuesName_of_blankText h.blank.2.2), placeReceptors_other _ _ _ (by decide)]

variable (lead) in
/-- The defined name keeps its place where it is seen to be defined. -/
theorem placeReceptors_text (hname : IsName name) (hnames : [] ∉ names) {t : Text}
    (hshown : h.shows t = true) : ∃ before, placeReceptors lead names [] (h.text name ++ t) =
      h.relocated lead names name ++ placeReceptors lead names (.char '(' :: before) t := by
  simp only [text_append, relocated, List.append_assoc, List.singleton_append]
  rw [placeReceptors_others (continuesName_of_blankText h.blank.1), List.append_nil]
  rcases h.modified with ⟨hmodifier, hspace⟩ | ⟨hmodifier, hspace⟩
  · obtain ⟨before, hplaced⟩ := h.placeReceptors_defined lead names hname t
      ((h.isBindingPosition_plain t).trans hshown)
    have hnone : placed lead names [] = [] := if_neg (by simpa using hnames)
    refine ⟨before, ?_⟩
    rw [hmodifier, hspace, hnone, List.nil_append, List.nil_append, List.nil_append, hplaced,
      List.nil_append]
  · obtain ⟨before, hplaced⟩ := h.placeReceptors_defined lead names hname t
      (h.isBindingPosition_modified hmodifier hspace _)
    refine ⟨before, ?_⟩
    rw [placeReceptors_used (isName_of_mem_modifiers hmodifier) (headIs_space hspace _)
        (headIs_point h.headIs_margin) (h.isBindingPosition_modifier hname _),
      placeReceptors_others (continuesName_of_blankText h.blank.2.1), hplaced]

end DefinitionHead

/-- The definition of a method with plain parameters. -/
structure MethodDefinition where
  head : DefinitionHead
  name : Text
  parameters : List Parameter
  gap : Text
  body : Text
  isName : IsName name
  blank : isBlankText gap = true

namespace MethodDefinition

variable (d : MethodDefinition)

def block : Text := .char '\x7b' :: (d.body ++ [.char '\x7d'])

def text : Text :=
  d.head.text d.name ++ (join "," (d.parameters.map Parameter.text) ++ .char ')' :: (d.gap ++ d.block))

/-- The names of the parameters. -/
def bound : List Text := d.parameters.map Parameter.name

/-- The definition with the receptor before each parameter that is one of the names, and with the
    block that relocation makes of its block alone. -/
def relocated (names : List Text) : Text :=
  d.head.relocated Module.instanceLead names d.name ++
    (join "," (d.parameters.map (Parameter.relocated Module.instanceLead names)) ++
      .char ')' :: (d.gap ++ relocate Module.instanceLead names d.block))

/-- What stands between the head and the block. -/
def signature : Text := join "," (d.parameters.map Parameter.text) ++ .char ')' :: d.gap

theorem text_eq : d.text = d.head.text d.name ++ (d.signature ++ d.block) := by
  simp [text, signature]

theorem mem_parameters {c : CodePoint} (hc : c ∈ join "," (d.parameters.map Parameter.text)) :
    isNotParen c = true ∧ isNotQuote c = true := by
  rcases mem_join hc with hc | ⟨t, ht, hc⟩
  · rw [List.mem_singleton.mp hc]
    decide
  · obtain ⟨p, _, rfl⟩ := List.mem_map.mp ht
    exact p.isPlain_text c hc

theorem isNotQuote_signature : ∀ c ∈ d.signature, isNotQuote c = true := by
  have hclose : isNotQuote (.char ')') = true := by decide
  exact List.forall_mem_append.mpr ⟨fun c hc => (d.mem_parameters hc).2,
    List.forall_mem_cons.mpr ⟨hclose, isNotQuote_of_blankText d.blank⟩⟩

/-- A method is seen to be defined, however far its body is looked at. -/
theorem shows_signature {run : Text} (hrun : ∀ c ∈ run, isNotQuote c = true) :
    d.head.shows (d.signature ++ .char '\x7b' :: run) = true := by
  have hbrace : isNotQuote (.char '\x7b') = true := by decide
  have hplain : IsPlainSignature (d.signature ++ .char '\x7b' :: run) := by
    simp only [signature, List.append_assoc, List.cons_append]
    exact .untyped (fun c hc => d.mem_parameters hc) d.blank
  have hquote : ∀ c ∈ d.signature ++ .char '\x7b' :: run, isNotQuote c = true :=
    List.forall_mem_append.mpr ⟨d.isNotQuote_signature, List.forall_mem_cons.mpr ⟨hbrace, hrun⟩⟩
  have hseen := isMethodHead_of_isPlainSignature hplain
  rw [List.takeWhile_eq_self_iff.mpr hquote] at hseen
  rw [DefinitionHead.shows, isMethodHead_blank d.head.blank.2.2, hseen]

variable {lead : Text} {names : List Text}

variable (lead) in
theorem placeReceptors_text (hnames : [] ∉ names) {run : Text} (hrun : ∀ c ∈ run, isNotQuote c = true) :
    placeReceptors lead names [] (d.head.text d.name ++ (d.signature ++ .char '\x7b' :: run)) =
      d.head.relocated lead names d.name ++
        (join "," (d.parameters.map (Parameter.relocated lead names)) ++
          .char ')' :: (d.gap ++ placeReceptors lead names [] (.char '\x7b' :: run))) := by
  obtain ⟨before, hhead⟩ := d.head.placeReceptors_text lead d.isName hnames (d.shows_signature hrun)
  obtain ⟨before', hparameters⟩ := Parameter.placeReceptors_parameters lead names
    d.parameters (.inl rfl) before (d.gap ++ .char '\x7b' :: run)
  have hsignature : d.signature ++ .char '\x7b' :: run =
      join "," (d.parameters.map Parameter.text) ++ .char ')' :: (d.gap ++ .char '\x7b' :: run) := by
    simp [signature]
  rw [hhead, hsignature, hparameters, placeReceptors_block _ _ d.blank]

/-- Relocation as a whole: every parameter is taken for a use, and the block is relocated as if it had
    no parameters. -/
theorem relocateOnce_text (hnames : [] ∉ names) : relocateOnce lead names d.text =
    d.head.relocated lead names d.name ++
      (join "," (d.parameters.map (Parameter.relocated lead names)) ++
        .char ')' :: (d.gap ++ relocateOnce lead names d.block)) := by
  have hbrace : ∀ c ∈ [CodePoint.char '\x7b'], isNotQuote c = true := by decide
  have hfirst : ∀ c ∈ d.head.text d.name ++ (d.signature ++ [.char '\x7b']), isNotQuote c = true :=
    List.forall_mem_append.mpr ⟨DefinitionHead.isNotQuote_text d.isName,
      List.forall_mem_append.mpr ⟨d.isNotQuote_signature, hbrace⟩⟩
  have htext : d.text = d.head.text d.name ++ (d.signature ++ [.char '\x7b']) ++
      (d.body ++ [.char '\x7d']) := by
    simp [text_eq, block]
  have hblock : d.block = [.char '\x7b'] ++ (d.body ++ [.char '\x7d']) := rfl
  have hrun : ∀ c ∈ (d.body ++ [CodePoint.char '\x7d']).takeWhile isNotQuote, isNotQuote c = true :=
    fun c hc => List.mem_takeWhile_imp hc
  have hplaced := d.placeReceptors_text lead hnames hrun
  rw [relocateOnce, relocateOnce, htext, hblock, mapPlain_append (by simp) hfirst,
    mapPlain_append (by simp) hbrace]
  simp only [List.append_assoc, List.cons_append, List.nil_append] at hplaced ⊢
  rw [hplaced]
  simp only [List.append_assoc, List.cons_append]

end MethodDefinition

section Lengths

variable {lead : Text} {names names' : List Text}

theorem length_mapPlain_le {f g : Text → Text} (h : ∀ run, (f run).length ≤ (g run).length) (code : Text) :
    (mapPlain f code).length ≤ (mapPlain g code).length := by
  rw [mapPlain, mapPlain, List.length_flatMap, List.length_flatMap]
  refine List.sum_le_sum fun part _ => ?_
  cases part with
  | literal text => exact le_refl _
  | plain run => exact h run

variable (lead) in
theorem length_placed_le (h : ∀ n ∈ names', n ∈ names) (name : Text) :
    (placed lead names' name).length ≤ (placed lead names name).length := by
  by_cases hname : name ∈ names'
  · simp [placed, hname, h name hname]
  · by_cases hname' : name ∈ names <;> simp [placed, hname, hname']

/-- Fewer names put the receptor into fewer places. -/
theorem length_placeReceptors_le (h : ∀ n ∈ names', n ∈ names) (before s : Text) :
    (placeReceptors lead names' before s).length ≤ (placeReceptors lead names before s).length := by
  induction s using nameInduction generalizing before with
  | nil => rw [placeReceptors_nil, placeReceptors_nil]
  | other c cs hc ih =>
    rw [placeReceptors_other _ _ _ hc, placeReceptors_other _ _ _ hc]
    exact Nat.succ_le_succ (ih _)
  | name name rest hname hrest ih =>
    rw [placeReceptors_name _ _ _ hname hrest, placeReceptors_name _ _ _ hname hrest,
      List.length_append, List.length_append]
    refine Nat.add_le_add ?_ (ih _)
    have hmono : takesReceptor names' before name rest = true → takesReceptor names before name rest = true := by
      simp only [takesReceptor, Bool.and_eq_true, List.contains_iff_mem]
      rintro ⟨⟨hmem, hpoint⟩, hused⟩
      exact ⟨⟨h name hmem, hpoint⟩, hused⟩
    by_cases htaken : takesReceptor names' before name rest = true
    · rw [if_pos htaken, if_pos (hmono htaken)]
    · rw [if_neg htaken]
      split <;> simp

theorem Parameter.length_relocated_le (h : ∀ n ∈ names', n ∈ names) (p : Parameter) :
    (p.relocated lead names').length ≤ (p.relocated lead names).length := by
  have hname := length_placed_le lead h p.name
  simp only [Parameter.relocated, List.length_append]
  omega

theorem Parameter.length_relocated_lt (hlead : lead ≠ []) {p : Parameter} (hp : p.name ∈ names)
    (hp' : p.name ∉ names') : (p.relocated lead names').length < (p.relocated lead names).length := by
  have hpos := List.length_pos_of_ne_nil hlead
  simp only [Parameter.relocated, placed, List.length_append, List.contains_iff_mem, if_pos hp, if_neg hp']
  omega

theorem MethodDefinition.length_relocateOnce_lt (d : MethodDefinition) (hlead : lead ≠ [])
    (hnames : [] ∉ names) (h : ∀ n ∈ names', n ∈ names) {p : Parameter} (hp : p ∈ d.parameters)
    (hmem : p.name ∈ names) (hnot : p.name ∉ names') :
    (relocateOnce lead names' d.text).length < (relocateOnce lead names d.text).length := by
  have hlist : (join "," (d.parameters.map (Parameter.relocated lead names'))).length <
      (join "," (d.parameters.map (Parameter.relocated lead names))).length := by
    rw [length_join, length_join, List.length_flatten, List.length_flatten, List.map_map, List.map_map]
    have hsum := List.sum_lt_sum (l := d.parameters) (fun p => (p.relocated lead names').length)
      (fun p => (p.relocated lead names).length) (fun p _ => p.length_relocated_le h)
      ⟨p, hp, Parameter.length_relocated_lt hlead hmem hnot⟩
    simp only [List.length_map, Function.comp_def]
    omega
  have hblock : (relocateOnce lead names' d.block).length ≤ (relocateOnce lead names d.block).length :=
    length_mapPlain_le (length_placeReceptors_le h []) d.block
  have hhead := length_placed_le lead h d.head.modifier
  rw [d.relocateOnce_text fun hnil => hnames (h _ hnil), d.relocateOnce_text hnames]
  simp only [DefinitionHead.relocated, List.length_append, List.length_cons]
  omega

end Lengths

/-- Parameters do not shadow members. Relocation puts the receptor before every parameter that is one of
    the names, and relocates the block as if it had no parameters; so it is what relocation of the other
    names would be exactly when no parameter is one of the names. -/
theorem parameters_taken_for_members (d : MethodDefinition) {names : List Text}
    (hnames : ∀ n ∈ names, IsName n ∧ n ≠ "this") :
    relocate Module.instanceLead names d.text = d.relocated names ∧
      (relocate Module.instanceLead names d.text =
          relocate Module.instanceLead (names.filter fun n => !d.bound.contains n) d.text ↔
        ∀ n ∈ d.bound, n ∉ names) := by
  have hlead : Module.instanceLead = receptor "this" := rfl
  have hempty : [] ∉ names := fun hnil => (hnames [] hnil).1.1 rfl
  have hfilter : ∀ n ∈ names.filter fun n => !d.bound.contains n, n ∈ names :=
    fun n hn => List.mem_of_mem_filter hn
  have honce : ∀ code, relocate Module.instanceLead names code = relocateOnce Module.instanceLead names code :=
    relocate_eq_relocateOnce isName_this hnames
  refine ⟨?_, fun hsame n hbound hn => ?_, fun hnone => ?_⟩
  · rw [honce, d.relocateOnce_text hempty, ← honce]
    rfl
  · obtain ⟨p, hp, rfl⟩ := List.mem_map.mp hbound
    have hnot : p.name ∉ names.filter fun n => !d.bound.contains n := by simp [hbound]
    have hgiven : Module.instanceLead ≠ [] := by decide
    have hlt := d.length_relocateOnce_lt hgiven hempty hfilter hp hn hnot
    rw [honce, hlead, relocate_eq_relocateOnce isName_this fun n hn => hnames n (hfilter n hn), ← hlead] at hsame
    exact absurd (congrArg List.length hsame) (by omega)
  · rw [List.filter_eq_self.mpr]
    intro n hn
    simpa using fun hbound => hnone n hbound hn

theorem blank_bare : isBlankText [] = true ∧ isBlankText [] = true ∧ isBlankText [] = true := by decide

theorem modified_bare : ([] : Text) = [] ∧ ([] : Text) = [] ∨ [] ∈ modifiers ∧ ([] : Text) ≠ [] := .inl ⟨rfl, rfl⟩

/-- `add(count) { return …; }`, where `…` is the value that is given back. -/
def adder (value : Text) : MethodDefinition where
  head := ⟨[], [], [], [], blank_bare, modified_bare⟩
  name := "add"
  parameters := [⟨[], "count", [], by unfold IsName; decide, by decide⟩]
  gap := " "
  body := " return " ++ value ++ "; "
  isName := by unfold IsName; decide
  blank := by decide

theorem parameters_taken_for_members_adder :
    (∀ n ∈ [ofString "total"], IsName n ∧ n ≠ "this") ∧
      (adder "total + count").text = "add(count) { return total + count; }" ∧
      relocate Module.instanceLead ["total"] (adder "total + count").text =
        "add(count) { return this.total + count; }" ∧
      relocate Module.instanceLead ["total"] (adder "total + count").text =
        (adder "total + count").relocated ["total"] := by
  have hnames : ∀ n ∈ [ofString "total"], IsName n ∧ n ≠ "this" := by
    unfold IsName
    decide
  exact ⟨hnames, rfl, by decide +kernel, (parameters_taken_for_members (adder "total + count") hnames).1⟩

/-- A parameter that is named after a member takes the receptor, in the parameter list and in the body. -/
theorem parameter_named_after_member : (adder "count").text = "add(count) { return count; }" ∧
    (adder "count").bound = ["count"] ∧
    relocate Module.instanceLead ["count"] (adder "count").text = "add(this.count) { return this.count; }" :=
  ⟨rfl, rfl, by decide +kernel⟩

end ElementCompiler.Snippet
