import ElementCompiler.Module.Members
import ElementCompiler.Proofs.Snippet.Signature
import ElementCompiler.Proofs.Snippet.Strip

set_option autoImplicit false

/-!
The head of a method or getter under relocation. A name that a snippet begins with keeps its place
when a word declares it, or when what follows is seen to be the signature of a method; whether it is
seen depends on the text up to the first quote only, and on a parameter list without parentheses.
-/

namespace ElementCompiler.Snippet

open Text

section Passes

variable {name lead : Text}

/-- A pass for one name changes words only. -/
theorem sameAhead_substituteFrom (hname : IsName name) (hlead : ∀ c ∈ lead, isJoined c = true)
    (before s : Text) (hcut : Apart before s) :
    SameAhead (substituteFrom name (receptorUnlessDeclared lead name) 0 before s) s := by
  induction s using nameInduction generalizing before with
  | nil => rw [substituteFrom_nil _ hname.head]; exact .nil
  | other c cs hc ih =>
    rw [substituteFrom_of_none _ (occursAt?_other hname.head hc)]
    exact .keep c (ih _ (Or.inl hc))
  | name first rest hfirst hrest ih =>
    have hrestSame := ih (first.reverse ++ before) (Or.inr hrest)
    by_cases hmiss : headIs isJoined before = true ∨ name ≠ first
    · rw [substituteFrom_otherName _ hname hfirst hrest hmiss]
      exact .word hfirst.1 hfirst.1 hfirst.isJoined hfirst.isJoined hrestSame
    · obtain ⟨hbefore, rfl⟩ : headIs isJoined before = false ∧ name = first := by simpa using hmiss
      rw [substituteFrom_sameName _ hname hrest hbefore, receptorUnlessDeclared]
      split
      · exact .word hname.1 hname.1 hname.isJoined hname.isJoined hrestSame
      · refine .word (by simp [hname.1]) hname.1 ?_ hname.isJoined hrestSame
        exact fun c hc => (List.mem_append.mp hc).elim (hlead c) (hname.isJoined c)

end Passes

/-- The words before the name of a method or getter. -/
def modifiers : List Text := ["async", "get", "set"]

/-- What a definition begins with, up to its parameter list: blanks, perhaps a modifier and blanks,
    the name, and blanks. -/
structure DefinitionHead where
  margin : Text
  modifier : Text
  space : Text
  gap : Text
  blank : isBlankText margin = true ∧ isBlankText space = true ∧ isBlankText gap = true
  modified : modifier = [] ∧ space = [] ∨ modifier ∈ modifiers ∧ space ≠ []

namespace DefinitionHead

def text (h : DefinitionHead) (name : Text) : Text :=
  h.margin ++ (h.modifier ++ (h.space ++ (name ++ (h.gap ++ [.char '(']))))

variable (h : DefinitionHead)

theorem isName_of_mem_modifiers {word : Text} (hword : word ∈ modifiers) : IsName word := by
  have hall : ∀ w ∈ modifiers, w ≠ [] ∧ ∀ c ∈ w, continuesName c = true := by decide
  exact hall word hword

/-- Behind blanks alone no name is declared by a word. -/
theorem endsInWord_margin : endsInWord declarationWords h.margin.reverse = false := by
  have hmargin : h.margin.reverse.dropWhile (·.is isBlank) = [] := by
    simpa using dropBlank_append ((isBlankText_reverse _).trans h.blank.1) []
  rw [endsInWord_eq_declares, hmargin, Bool.and_eq_false_iff]
  exact Or.inr (by decide)

theorem isKeyHead_of_dropBlank {s t : Text} {c : CodePoint}
    (hs : s.dropWhile (·.is isBlank) = c :: t) (hc : c ≠ ':') : isKeyHead s = false := by
  unfold isKeyHead
  split <;> simp_all

theorem dropBlank_parameters (t : Text) :
    (h.gap ++ .char '(' :: t).dropWhile (·.is isBlank) = .char '(' :: t := by
  rw [dropBlank_append h.blank.2.2]
  rfl

/-- Whether what follows the name, up to the first quote, shows that a method is defined. -/
def shows (t : Text) : Bool := isMethodHead (h.gap ++ .char '(' :: t)

theorem isBindingPosition_plain (t : Text) :
    isBindingPosition h.margin.reverse (h.gap ++ .char '(' :: t) = h.shows t := by
  have hmargin : h.margin.reverse.all (·.is isBlank) = true :=
    (isBlankText_reverse _).trans h.blank.1
  rw [isBindingPosition, h.endsInWord_margin, hmargin,
    isKeyHead_of_dropBlank (h.dropBlank_parameters t) (by simp)]
  simp [shows]

/-- Behind blanks alone only what opens a parameter list or a value shows that a name is declared. -/
theorem isBindingPosition_margin {after t : Text} {c : CodePoint}
    (hafter : after.dropWhile (·.is isBlank) = c :: t) (hparen : c ≠ '(') (hcolon : c ≠ ':') :
    isBindingPosition h.margin.reverse after = false := by
  have hmethod : isMethodHead after = false := by
    unfold isMethodHead
    rw [hafter]
    split <;> simp_all
  rw [isBindingPosition, h.endsInWord_margin, hmethod, isKeyHead_of_dropBlank hafter hcolon]
  simp

theorem isBindingPosition_modifier {name : Text} (hname : IsName name) (t : Text) :
    isBindingPosition h.margin.reverse (h.space ++ (name ++ t)) = false := by
  obtain ⟨c, cs, rfl⟩ := List.exists_cons_of_ne_nil hname.1
  have hc := hname.2 c List.mem_cons_self
  have hblank := isBlank_of_isJoined (isJoined_of_continuesName hc)
  have hafter : (h.space ++ (c :: cs ++ t)).dropWhile (·.is isBlank) = c :: (cs ++ t) := by
    rw [dropBlank_append h.blank.2.1, List.cons_append, List.dropWhile_cons_of_neg (by simp [hblank])]
  apply h.isBindingPosition_margin hafter
  · rintro rfl
    exact absurd hc (by decide)
  · rintro rfl
    exact absurd hc (by decide)

theorem headIs_margin : headIs isJoined h.margin.reverse = false := by
  have hnone : headIs isJoined [] = false := rfl
  have hmargin := headIs_blank ((isBlankText_reverse _).trans h.blank.1) (Or.inr hnone)
  rwa [List.append_nil] at hmargin

theorem isBindingPosition_modified (hmodifier : h.modifier ∈ modifiers) (hspace : h.space ≠ [])
    (after : Text) :
    isBindingPosition (h.space.reverse ++ (h.modifier.reverse ++ h.margin.reverse)) after = true := by
  have hblank := (isBlankText_reverse _).trans h.blank.2.1
  have hhead : headIs (·.is isBlank) (h.space.reverse ++ (h.modifier.reverse ++ h.margin.reverse)) =
      true := by
    obtain ⟨c, cs, hc⟩ := List.exists_cons_of_ne_nil (List.reverse_ne_nil_iff.mpr hspace)
    rw [hc] at hblank ⊢
    exact isBlank_of_mem hblank c List.mem_cons_self
  have hstop : headIs (·.is isBlank) (h.modifier.reverse ++ h.margin.reverse) = false :=
    headIs_name (isName_of_mem_modifiers hmodifier)
      (fun _ hc => isBlank_of_isJoined (isJoined_of_continuesName hc)) _
  have hdeclares : declares (h.modifier.reverse ++ h.margin.reverse) = true := by
    have hall : ∀ w ∈ modifiers, declares w.reverse = true := by decide
    rw [declares, takeWhile_append_of_headIs _ (headIs_isWord (headIs_continuesName h.headIs_margin))]
    exact hall _ hmodifier
  have hends : endsInWord declarationWords
      (h.space.reverse ++ (h.modifier.reverse ++ h.margin.reverse)) = true := by
    rw [endsInWord_eq_declares, hhead, dropWhile_run (isBlank_of_mem hblank) hstop, hdeclares,
      Bool.and_self]
  rw [isBindingPosition, hends, Bool.true_or, Bool.true_or]

/-- Whether a pass for a name puts the receptor into the head: before the modifier, or before the
    defined name when nothing shows that it is defined. -/
def Breaks (name : Text) (shown : Bool) (other : Text) : Prop :=
  other = h.modifier ∨ (h.modifier = [] ∧ other = name ∧ shown = false)

variable {name other lead : Text} {h : DefinitionHead}

theorem headIs_parameters (t : Text) :
    headIs continuesName (h.gap ++ .char '(' :: t) = false := by
  have hparen : headIs isJoined (.char '(' :: t) = false := rfl
  exact headIs_continuesName (headIs_blank h.blank.2.2 (Or.inr hparen))

theorem headIs_space (hsome : h.space ≠ []) (t : Text) :
    headIs continuesName (h.space ++ t) = false :=
  headIs_continuesName (headIs_blank h.blank.2.1 (Or.inl hsome))

theorem substituteFrom_parameters (hother : IsName other) (written : Text → Text → Text)
    (before t : Text) :
    ∃ before', headIs continuesName before' = false ∧
      substituteFrom other written 0 before (h.gap ++ .char '(' :: t) =
        h.gap ++ .char '(' :: substituteFrom other written 0 before' t := by
  have hparen : continuesName (.char '(') = false := by decide
  refine ⟨.char '(' :: (h.gap.reverse ++ before), hparen, ?_⟩
  rw [substituteFrom_others _ hother (continuesName_of_blankText h.blank.2.2),
    substituteFrom_of_none _ (occursAt?_other hother.head hparen)]

/-- A pass over the defined name and what follows it, where the name is seen to be defined. -/
theorem substituteFrom_defined (hname : IsName name) (hother : IsName other)
    (hlead : ∀ c ∈ lead, isJoined c = true) (before : Text) {t : Text}
    (hbefore : headIs isJoined before = false)
    (hbinding : other = name → isBindingPosition before (h.gap ++ .char '(' :: t) = true) :
    ∃ t', substituteFrom other (receptorUnlessDeclared lead other) 0 before
        (name ++ (h.gap ++ .char '(' :: t)) = name ++ (h.gap ++ .char '(' :: t') ∧
      SameAhead t' t := by
  obtain ⟨before', hhead, hparameters⟩ := substituteFrom_parameters (h := h) hother
    (receptorUnlessDeclared lead other) (name.reverse ++ before) t
  refine ⟨_, ?_, sameAhead_substituteFrom hother hlead before' t (Or.inl hhead)⟩
  rw [← hparameters]
  by_cases hsame : other = name
  · subst hsame
    rw [substituteFrom_sameName _ hname (headIs_parameters t) hbefore, receptorUnlessDeclared,
      if_pos (hbinding rfl)]
  · rw [substituteFrom_otherName _ hother hname (headIs_parameters t) (Or.inr hsame)]

theorem text_append (t : Text) : h.text name ++ t =
    h.margin ++ (h.modifier ++ (h.space ++ (name ++ (h.gap ++ .char '(' :: t)))) := by
  simp [text]

/-- A pass that does not break the head changes only what comes after it. -/
theorem substitute_kept (hname : IsName name) (hother : IsName other)
    (hlead : ∀ c ∈ lead, isJoined c = true) {t : Text} (hkept : ¬ h.Breaks name (h.shows t) other) :
    ∃ t', substitute other (receptorUnlessDeclared lead other) (h.text name ++ t) =
      h.text name ++ t' ∧ SameAhead t' t := by
  have hmargin := continuesName_of_blankText h.blank.1
  have hspace := continuesName_of_blankText h.blank.2.1
  simp only [Breaks, not_or, not_and, Bool.not_eq_false] at hkept
  simp only [substitute, text_append]
  rw [substituteFrom_others _ hother hmargin, List.append_nil]
  rcases h.modified with ⟨hmodifier, hnone⟩ | ⟨hmodifier, hsome⟩
  · obtain ⟨t', hpass, hsame⟩ := substituteFrom_defined (h := h) hname hother hlead
      h.margin.reverse h.headIs_margin fun heq => by
        rw [isBindingPosition_plain]
        exact hkept.2 hmodifier heq
    refine ⟨t', ?_, hsame⟩
    rw [hmodifier, hnone, List.nil_append, List.nil_append, hpass, List.nil_append, List.nil_append]
  · have hword := isName_of_mem_modifiers hmodifier
    have hbefore : headIs isJoined (h.space.reverse ++ (h.modifier.reverse ++ h.margin.reverse)) =
        false :=
      headIs_blank ((isBlankText_reverse _).trans h.blank.2.1) (Or.inl (by simpa using hsome))
    obtain ⟨t', hpass, hsame⟩ := substituteFrom_defined (h := h) hname hother hlead
      _ hbefore fun _ => h.isBindingPosition_modified hmodifier hsome _
    refine ⟨t', ?_, hsame⟩
    rw [substituteFrom_otherName _ hother hword (headIs_space hsome _) (Or.inr hkept.1),
      substituteFrom_others _ hother hspace, hpass]

theorem substitute_broken (lead : Text) (hname : IsName name) (hother : IsName other) {t : Text}
    (hbreaks : h.Breaks name (h.shows t) other) :
    ∃ u, substitute other (receptorUnlessDeclared lead other) (h.text name ++ t) =
      h.margin ++ (lead ++ u) := by
  have hmargin := continuesName_of_blankText h.blank.1
  simp only [substitute, text_append]
  rw [substituteFrom_others _ hother hmargin, List.append_nil]
  rcases hbreaks with rfl | ⟨hmodifier, rfl, hhead⟩
  · have hsome : h.space ≠ [] := h.modified.elim (fun hnone => absurd hnone.1 hother.1) And.right
    rw [substituteFrom_sameName _ hother (headIs_space hsome _) h.headIs_margin,
      receptorUnlessDeclared, h.isBindingPosition_modifier hname, if_neg Bool.false_ne_true]
    exact ⟨_, by rw [List.append_assoc]⟩
  · have hnone : h.space = [] := h.modified.elim And.right fun hsome =>
      absurd hmodifier (isName_of_mem_modifiers hsome.1).1
    rw [hmodifier, hnone, List.nil_append, List.nil_append,
      substituteFrom_sameName _ hother (headIs_parameters t) h.headIs_margin,
      receptorUnlessDeclared, isBindingPosition_plain, hhead, if_neg Bool.false_ne_true]
    exact ⟨_, by rw [List.append_assoc]⟩

/-- The snippet has the head, and shows so much of a signature before its first quote. -/
def AtHead (h : DefinitionHead) (name : Text) (shown : Bool) (code : Text) : Prop :=
  ∃ t tail, code = h.text name ++ (t ++ tail) ∧ h.shows t = shown ∧
    (∀ c ∈ t, isNotQuote c = true) ∧ ∀ c cs, tail = c :: cs → isQuote c = true

theorem isNotQuote_text (hname : IsName name) : ∀ c ∈ h.text name, isNotQuote c = true := by
  have hmodifier : ∀ c ∈ h.modifier, isNotQuote c = true := by
    rcases h.modified with ⟨hnone, -⟩ | ⟨hmem, -⟩
    · simp [hnone]
    · exact fun c hc => isNotQuote_of_continuesName ((isName_of_mem_modifiers hmem).2 c hc)
  have hname' : ∀ c ∈ name, isNotQuote c = true := fun c hc =>
    isNotQuote_of_continuesName (hname.2 c hc)
  have hparen : isNotQuote (.char '(') = true := by decide
  simp only [text, List.forall_mem_append, List.forall_mem_cons]
  exact ⟨isNotQuote_of_blankText h.blank.1, hmodifier, isNotQuote_of_blankText h.blank.2.1, hname',
    isNotQuote_of_blankText h.blank.2.2, hparen, by simp⟩

theorem text_ne_nil : h.text name ≠ [] := by
  simp [text]

theorem mapPlain_quote {f : Text → Text} {tail : Text}
    (htail : ∀ c cs, tail = c :: cs → isQuote c = true) :
    ∀ c cs, mapPlain f tail = c :: cs → isQuote c = true := by
  cases tail with
  | nil => simp [mapPlain_nil]
  | cons d ds =>
    have hd := htail d ds rfl
    intro c cs hc
    rw [mapPlain_literal f hd, List.cons_append, List.cons.injEq] at hc
    exact hc.1 ▸ hd

theorem mapPlain_head {first t tail : Text} (hne : first ≠ [])
    (hfirst : ∀ c ∈ first, isNotQuote c = true) (ht : ∀ c ∈ t, isNotQuote c = true)
    (htail : ∀ c cs, tail = c :: cs → isQuote c = true) (f : Text → Text) :
    mapPlain f (first ++ (t ++ tail)) = f (first ++ t) ++ mapPlain f tail := by
  have htake : tail.takeWhile isNotQuote = [] ∧ tail.dropWhile isNotQuote = tail := by
    cases tail with
    | nil => simp
    | cons c cs => simp [isNotQuote, htail c cs rfl]
  rw [mapPlain_append hne hfirst, List.takeWhile_append_of_pos ht, List.dropWhile_append_of_pos ht,
    htake.1, htake.2, List.append_nil]

theorem shows_congr {t t' : Text} (hsame : SameAhead t' t) : h.shows t' = h.shows t := by
  have hall : ∀ near : Text, SameAhead (near ++ .char '(' :: t') (near ++ .char '(' :: t) := by
    intro near
    induction near with
    | nil => exact .keep _ hsame
    | cons c cs ih => exact .keep c ih
  exact (hall h.gap).isMethodHead_eq

theorem replaceOne_kept (hname : IsName name) (hother : IsName other)
    (hlead : ∀ c ∈ lead, isJoined c = true) {shown : Bool} {code : Text}
    (hcode : h.AtHead name shown code) (hkept : ¬ h.Breaks name shown other) :
    h.AtHead name shown (replaceOne (lead ++ other) other code) := by
  obtain ⟨t, tail, rfl, rfl, hquote, htail⟩ := hcode
  obtain ⟨u, hpass, hsame⟩ := substitute_kept hname hother hlead hkept
  refine ⟨u, mapPlain (substitute other (receptorUnlessDeclared lead other)) tail, ?_,
    shows_congr hsame, hsame.isNotQuote hquote, mapPlain_quote htail⟩
  change mapPlain (substitute other (receptorUnlessDeclared lead other)) _ = _
  rw [mapPlain_head text_ne_nil (isNotQuote_text hname) hquote htail, hpass, List.append_assoc]

theorem replaceOne_broken (lead : Text) (hname : IsName name) (hother : IsName other)
    {shown : Bool} {code : Text} (hcode : h.AtHead name shown code) (hbreaks : h.Breaks name shown other) :
    h.margin ++ lead <+: replaceOne (lead ++ other) other code := by
  obtain ⟨t, tail, rfl, rfl, hquote, htail⟩ := hcode
  obtain ⟨u, hpass⟩ := substitute_broken lead hname hother hbreaks
  change _ <+: mapPlain (substitute other (receptorUnlessDeclared lead other)) _
  rw [mapPlain_head text_ne_nil (isNotQuote_text hname) hquote htail, hpass, ← List.append_assoc,
    List.append_assoc]
  exact List.prefix_append _ _

/-- A receptor at the beginning stays there: its own word is no method that is defined there. -/
theorem replaceOne_receptor {word : Text} (hword : IsName word) (hother : IsName other) {code : Text}
    (hcode : h.margin ++ receptor word <+: code) :
    h.margin ++ receptor word <+: replaceOne (receptor word ++ other) other code := by
  obtain ⟨u, rfl⟩ := hcode
  have hmargin := continuesName_of_blankText h.blank.1
  have hpoint : continuesName (.char '.') = false := by decide
  have hquote : ∀ c ∈ h.margin ++ receptor word, isNotQuote c = true :=
    List.forall_mem_append.mpr ⟨isNotQuote_of_blankText h.blank.1, isNotQuote_receptor hword⟩
  have hpass : ∀ v, h.margin ++ receptor word <+: substitute other
      (receptorUnlessDeclared (receptor word) other) (h.margin ++ receptor word ++ v) := by
    intro v
    have hsplit : h.margin ++ receptor word ++ v = h.margin ++ (word ++ .char '.' :: v) := by
      simp [receptor]
    have hhead : headIs continuesName (.char '.' :: v) = false := hpoint
    rw [substitute, hsplit, substituteFrom_others _ hother hmargin, List.append_nil,
      List.prefix_append_right_inj]
    by_cases hsame : other = word
    · subst hsame
      have hbinding : isBindingPosition h.margin.reverse (.char '.' :: v) = false :=
        h.isBindingPosition_margin rfl (by simp) (by simp)
      rw [substituteFrom_sameName _ hword hhead h.headIs_margin, receptorUnlessDeclared, hbinding,
        if_neg Bool.false_ne_true, List.append_assoc]
      exact List.prefix_append _ _
    · rw [substituteFrom_otherName _ hother hword hhead (Or.inr hsame),
        substituteFrom_of_none _ (occursAt?_other hother.head hpoint), receptor,
        List.prefix_append_right_inj]
      exact ⟨_, rfl⟩
  change _ <+: mapPlain (substitute other (receptorUnlessDeclared (receptor word) other)) _
  rw [mapPlain_append (by simp [receptor]) hquote]
  exact (hpass _).trans (List.prefix_append _ _)

theorem relocate_cons {names : List Text} (hother : IsName other) (code : Text) :
    relocate lead (other :: names) code =
      relocate lead names (replaceOne (lead ++ other) other code) := by
  have hempty : ¬ other.isEmpty = true := by simpa using hother.1
  rw [relocate, replaceNames, List.foldl_cons, if_neg hempty]
  rfl

theorem relocate_receptor {word : Text} (hword : IsName word) {names : List Text}
    (hnames : ∀ n ∈ names, IsName n) {code : Text} (hcode : h.margin ++ receptor word <+: code) :
    h.margin ++ receptor word <+: relocate (receptor word) names code := by
  induction names generalizing code with
  | nil => exact hcode
  | cons n names ih =>
    rw [List.forall_mem_cons] at hnames
    rw [relocate_cons hnames.1]
    exact ih hnames.2 (replaceOne_receptor hword hnames.1 hcode)

/-- After all passes the head is there unless one of them broke it. -/
theorem relocate_head {word : Text} (hword : IsName word) (hname : IsName name) {names : List Text}
    (hnames : ∀ n ∈ names, IsName n) {shown : Bool} {code : Text} (hcode : h.AtHead name shown code) :
    (h.AtHead name shown (relocate (receptor word) names code) ∧
        ∀ n ∈ names, ¬ h.Breaks name shown n) ∨
      (h.margin ++ receptor word <+: relocate (receptor word) names code ∧
        ∃ n ∈ names, h.Breaks name shown n) := by
  induction names generalizing code with
  | nil => exact Or.inl ⟨hcode, by simp⟩
  | cons n names ih =>
    rw [List.forall_mem_cons] at hnames
    rw [relocate_cons hnames.1]
    by_cases hbreaks : h.Breaks name shown n
    · -- no later pass takes the receptor away again
      have hbroken := replaceOne_broken (receptor word) hname hnames.1 hcode hbreaks
      exact Or.inr ⟨relocate_receptor hword hnames.2 hbroken, n, List.mem_cons_self, hbreaks⟩
    · have hkept := replaceOne_kept hname hnames.1 (receptor_isJoined hword) hcode hbreaks
      refine (ih hnames.2 hkept).imp (fun hrest => ⟨hrest.1, ?_⟩) fun hrest => ⟨hrest.1, ?_⟩
      · exact List.forall_mem_cons.mpr ⟨hbreaks, hrest.2⟩
      · exact hrest.2.imp fun _ hn => ⟨List.mem_cons_of_mem n hn.1, hn.2⟩

theorem strip_receptor {word : Text} (hword : IsName word) (hgroup : word ∉ memberGroups)
    (r : Receptor) {code : Text} (hcode : h.margin ++ receptor word <+: code) :
    h.margin ++ receptor word <+: strip r code := by
  obtain ⟨u, rfl⟩ := hcode
  have hpoint : continuesName (.char '.') = false := by decide
  have hquote : ∀ c ∈ h.margin ++ receptor word, isNotQuote c = true :=
    List.forall_mem_append.mpr ⟨isNotQuote_of_blankText h.blank.1, isNotQuote_receptor hword⟩
  have hpass : ∀ v, h.margin ++ receptor word <+:
      stripFrom r 0 [] (h.margin ++ receptor word ++ v) := by
    intro v
    have hsplit : h.margin ++ receptor word ++ v = h.margin ++ (word ++ .char '.' :: v) := by
      simp [receptor]
    have hhead : headIs continuesName (.char '.' :: v) = false := hpoint
    rw [hsplit, stripFrom_others _ (continuesName_of_blankText h.blank.1),
      List.prefix_append_right_inj, stripFrom_name _ hword hhead (Or.inr (Or.inl hgroup)), stripFrom_other _ _ hpoint, receptor,
      List.prefix_append_right_inj]
    exact ⟨_, rfl⟩
  rw [strip, mapPlain_append (by simp [receptor]) hquote]
  exact (hpass _).trans (List.prefix_append _ _)

theorem opensMember_blank {s t : Text} (hs : isBlankText s = true)
    (ht : s ≠ [] ∨ opensMember t = false) : opensMember (s ++ t) = false := by
  cases s with
  | nil => exact ht.resolve_left fun hne => hne rfl
  | cons c cs =>
    have hblank : c.is isBlank = true := List.all_eq_true.mp hs c List.mem_cons_self
    have hpoint : c ≠ '.' := by
      rintro rfl
      exact absurd hblank (by decide)
    unfold opensMember
    split <;> simp_all

theorem stripFrom_head (hname : IsName name) (r : Receptor) (t : Text) :
    h.text name <+: stripFrom r 0 [] (h.text name ++ t) := by
  have hparen : continuesName (.char '(') = false := by decide
  have hdefined : ∀ before, name ++ (h.gap ++ [.char '(']) <+:
      stripFrom r 0 before (name ++ (h.gap ++ .char '(' :: t)) := by
    intro before
    have hopens : opensMember (h.gap ++ .char '(' :: t) = false :=
      opensMember_blank h.blank.2.2 (Or.inr rfl)
    rw [stripFrom_name _ hname (headIs_parameters t) (Or.inr (Or.inr hopens)),
      stripFrom_others _ (continuesName_of_blankText h.blank.2.2), stripFrom_other _ _ hparen,
      List.prefix_append_right_inj, List.prefix_append_right_inj]
    exact ⟨_, rfl⟩
  rw [text_append, stripFrom_others _ (continuesName_of_blankText h.blank.1), text,
    List.prefix_append_right_inj]
  rcases h.modified with ⟨hmodifier, hnone⟩ | ⟨hmodifier, hsome⟩
  · rw [hmodifier, hnone]
    exact hdefined _
  · have hopens : opensMember (h.space ++ (name ++ (h.gap ++ .char '(' :: t))) = false :=
      opensMember_blank h.blank.2.1 (Or.inl hsome)
    rw [stripFrom_name _ (isName_of_mem_modifiers hmodifier) (headIs_space hsome _)
        (Or.inr (Or.inr hopens)), stripFrom_others _ (continuesName_of_blankText h.blank.2.1),
      List.prefix_append_right_inj, List.prefix_append_right_inj]
    exact hdefined _

theorem strip_head (hname : IsName name) (r : Receptor) {shown : Bool} {code : Text}
    (hcode : h.AtHead name shown code) : h.text name <+: strip r code := by
  obtain ⟨t, tail, rfl, -, hquote, htail⟩ := hcode
  rw [strip, mapPlain_head text_ne_nil (isNotQuote_text hname) hquote htail]
  exact (stripFrom_head hname r t).trans (List.prefix_append _ _)

/-- A receptor at the beginning is not the head. -/
theorem not_text_of_receptor {word : Text} (hword : IsName word) (hmodifiers : word ∉ modifiers)
    (hname : IsName name) {code : Text} (hcode : h.margin ++ receptor word <+: code) :
    ¬ h.text name <+: code := by
  obtain ⟨u, rfl⟩ := hcode
  rintro ⟨v, hv⟩
  have hpoint : headIs continuesName (.char '.' :: u) = false :=
    (by decide : continuesName (.char '.') = false)
  have hsplit : h.margin ++ receptor word ++ u = h.margin ++ (word ++ .char '.' :: u) := by
    simp [receptor]
  rw [text_append, hsplit] at hv
  have htext := List.append_cancel_left hv
  have htake := congrArg (List.takeWhile continuesName) htext
  rw [takeWhile_run hword.2 hpoint] at htake
  rcases h.modified with ⟨hmodifier, hnone⟩ | ⟨hmodifier, hsome⟩
  · rw [hmodifier, hnone, List.nil_append, List.nil_append] at htext htake
    rw [takeWhile_run hname.2 (headIs_parameters v)] at htake
    have hrest := List.append_cancel_left (htake ▸ htext)
    cases hgap : h.gap with
    | nil => simp [hgap] at hrest
    | cons c cs =>
      have hblank := isBlank_of_mem h.blank.2.2 c (hgap ▸ List.mem_cons_self)
      rw [hgap, List.cons_append, List.cons.injEq] at hrest
      rw [hrest.1] at hblank
      exact absurd hblank (by decide)
  · rw [takeWhile_run (isName_of_mem_modifiers hmodifier).2 (headIs_space hsome _)] at htake
    exact hmodifiers (htake ▸ hmodifier)

theorem shows_eq_true {rest : Text} :
    h.shows (rest.takeWhile isNotQuote) = true ↔ IsPlainSignature rest := by
  rw [shows, isMethodHead_blank h.blank.2.2, isMethodHead_signature]

theorem atHead_text (rest : Text) :
    h.AtHead name (h.shows (rest.takeWhile isNotQuote)) (h.text name ++ rest) :=
  ⟨_, rest.dropWhile isNotQuote, by rw [List.takeWhile_append_dropWhile], rfl,
    fun _ hc => List.mem_takeWhile_imp hc, fun _ _ hrest => isQuote_of_dropWhile hrest⟩

/-- When relocation leaves the head as it is: the modifier is no relocated name, or there is none and
    the signature is plain. -/
def IsKept (h : DefinitionHead) (names : List Text) (rest : Text) : Prop :=
  (h.modifier ≠ [] ∧ h.modifier ∉ names) ∨ (h.modifier = [] ∧ IsPlainSignature rest)

theorem isKept_iff {names : List Text} (hmem : name ∈ names) (hnames : ∀ n ∈ names, IsName n)
    {rest : Text} :
    h.IsKept names rest ↔
      ∀ n ∈ names, ¬ h.Breaks name (h.shows (rest.takeWhile isNotQuote)) n := by
  unfold IsKept Breaks
  rw [← shows_eq_true (h := h)]
  constructor
  · rintro (⟨hsome, hfree⟩ | ⟨hnone, hshows⟩) n hn
    · rintro (rfl | ⟨hnone, -⟩)
      · exact hfree hn
      · exact hsome hnone
    · rintro (rfl | ⟨-, -, hhidden⟩)
      · exact (hnames _ hn).1 hnone
      · exact absurd (hshows.symm.trans hhidden) (by decide)
  · intro hkept
    by_cases hnone : h.modifier = []
    · refine Or.inr ⟨hnone, ?_⟩
      by_contra hhidden
      exact hkept name hmem (Or.inr ⟨hnone, rfl, by simpa using hhidden⟩)
    · exact Or.inl ⟨hnone, fun hn => hkept _ hn (Or.inl rfl)⟩

/-- A definition keeps its head under relocation when and only when the head is seen to be one; else
    the receptor is put at its beginning. -/
theorem relocateMembers_head {word : Text} (hword : IsName word) (hgroup : word ∉ memberGroups)
    (hmodifiers : word ∉ modifiers) (hname : IsName name) {names : List Text}
    (hnames : ∀ n ∈ names, IsName n) (hmem : name ∈ names) (r : Receptor) (rest : Text) :
    (h.IsKept names rest ∧
        h.text name <+: relocateMembers names (receptor word) r (h.text name ++ rest)) ∨
      (¬ h.IsKept names rest ∧
        ¬ h.text name <+: relocateMembers names (receptor word) r (h.text name ++ rest) ∧
        h.margin ++ receptor word <+:
          relocateMembers names (receptor word) r (h.text name ++ rest)) := by
  have hdups : ∀ n, n ∈ names.eraseDups ↔ n ∈ names := fun n => List.mem_eraseDups
  have hnames' : ∀ n ∈ names.eraseDups, IsName n := fun n hn => hnames n ((hdups n).mp hn)
  rw [isKept_iff hmem hnames, relocateMembers]
  rcases relocate_head hword hname hnames' (atHead_text rest) with
    ⟨hhead, hkept⟩ | ⟨hhead, n, hn, hbreaks⟩
  · exact Or.inl ⟨fun n hn => hkept n ((hdups n).mpr hn), strip_head hname r hhead⟩
  · have hbroken := strip_receptor hword hgroup r hhead
    refine Or.inr ⟨fun hkept => hkept n ((hdups n).mp hn) hbreaks, ?_, hbroken⟩
    exact not_text_of_receptor hword hmodifiers hname hbroken

end DefinitionHead

end ElementCompiler.Snippet
