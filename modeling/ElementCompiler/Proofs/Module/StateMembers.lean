import ElementCompiler.Proofs.Module.Sections
import ElementCompiler.Proofs.Snippet.DefinitionHead
import ElementCompiler.Proofs.Snippet.Relocation

set_option autoImplicit false

/-!
Methods and getters as members of a class. Each is written as its relocated code, so that it is a
member of its name as long as its code keeps the head of its definition.
-/

namespace ElementCompiler.Module

open Attempt Snippet Text

variable {m : Members} {state : Entries StateValue}

theorem classCode_text {s : Text} (hs : s ≠ []) : m.classCode (.str s) =
    .ok (.str (relocateMembers m.names instanceLead (.before instanceLead) s)) := by
  have hempty : s.isEmpty = false := by simpa using hs
  rw [Members.classCode, onGiven, hempty]
  rfl

section Mappers

variable {mapper mapper' : CodeMapper} {between after : Text}

/-- Each entry is written by itself. -/
theorem stateMembers_eq_ok {members : List Json} : stateMembers mapper between after state =
    .ok members ↔ List.Forall₂
      (fun entry member => stateMember mapper between after entry.1 entry.2 = .ok member)
      state members := by
  rw [stateMembers_eq_mapM, mapM_eq_ok]

theorem stateMembers_congr (h : ∀ s ∈ state, mapper' s.2.code = mapper s.2.code) :
    stateMembers mapper' between after state = stateMembers mapper between after state := by
  induction state with
  | nil => rfl
  | cons entry state ih =>
    rw [List.forall_mem_cons] at h
    rw [stateMembers, stateMembers, stateMember, stateMember, h.1, ih h.2]

end Mappers

/-- Of a method or getter that begins with a definition of its name, the head is emitted exactly when
    relocation keeps it; else the receptor of the instance stands where the head was. -/
def EmitsHead (m : Members) (entry : Text × StateValue) (emitted : Text) : Prop :=
  entry.2.kind.isSelfNamed = true → ∀ (h : DefinitionHead) (rest : Text),
    entry.2.code = .str (h.text entry.1 ++ rest) →
      (h.text entry.1 <+: emitted ↔ h.IsKept m.names rest) ∧
        (¬ h.IsKept m.names rest → h.margin ++ instanceLead <+: emitted)

theorem emitsHead_of_relocated (hnames : ∀ n ∈ m.names, IsName n) {name : Text}
    (hname : name ∈ m.names) (h : DefinitionHead) (rest : Text) :
    (h.text name <+:
          relocateMembers m.names instanceLead (.before instanceLead) (h.text name ++ rest) ↔
        h.IsKept m.names rest) ∧
      (¬ h.IsKept m.names rest → h.margin ++ instanceLead <+:
        relocateMembers m.names instanceLead (.before instanceLead) (h.text name ++ rest)) := by
  have hthis : IsName (ofString "this") := ⟨by decide, by decide⟩
  have hgroup : ofString "this" ∉ memberGroups := by decide
  have hmodifiers : ofString "this" ∉ modifiers := by decide
  have hlead : instanceLead = receptor "this" := by decide
  rw [hlead]
  rcases DefinitionHead.relocateMembers_head (h := h) hthis hgroup hmodifiers (hnames name hname)
    hnames hname (.before (receptor "this")) rest with ⟨hkept, hhead⟩ | ⟨hbroken, hhead, hreceptor⟩
  · exact ⟨iff_of_true hhead hkept, fun hbroken => absurd hkept hbroken⟩
  · exact ⟨iff_of_false hhead hbroken, fun _ => hreceptor⟩

theorem exists_stateMember (hnames : ∀ n ∈ m.names, IsName n) {entry : Text × StateValue}
    (hcode : entry.2.code.IsText) (hname : entry.1 ∈ m.names) :
    ∃ emitted : Text, stateMember m.classCode " = " ";" entry.1 entry.2 = .ok (.str emitted) ∧
      EmitsHead m entry emitted := by
  obtain ⟨s, hs⟩ := hcode
  obtain ⟨t, ht⟩ := isTextMapper_onGiven _ s
  have ht : m.classCode entry.2.code = .ok (.str t) := hs ▸ ht
  rw [stateMember, ht, ok_bind]
  by_cases hself : entry.2.kind.isSelfNamed = true
  · refine ⟨t, by rw [if_pos hself]; rfl, fun _ h rest hbegins => ?_⟩
    have hne : h.text entry.1 ++ rest ≠ [] := by simp [DefinitionHead.text_ne_nil]
    rw [hbegins, classCode_text hne] at ht
    obtain rfl := Json.str.inj (Except.ok.inj ht)
    exact emitsHead_of_relocated hnames hname h rest
  · exact ⟨_, by rw [if_neg hself]; rfl, fun hself' => absurd hself' hself⟩

theorem exists_stateMembers_emitting (hnames : ∀ n ∈ m.names, IsName n)
    (hcode : ∀ entry ∈ state, entry.2.code.IsText) (hstate : ∀ entry ∈ state, entry.1 ∈ m.names) :
    ∃ members : List Text, stateMembers m.classCode " = " ";" state = .ok (members.map .str) ∧
      List.Forall₂ (EmitsHead m) state members := by
  induction state with
  | nil => exact ⟨[], rfl, .nil⟩
  | cons entry state ih =>
    rw [List.forall_mem_cons] at hcode hstate
    obtain ⟨emitted, hfirst, hhead⟩ := exists_stateMember hnames hcode.1 hstate.1
    obtain ⟨members, hmembers, hheads⟩ := ih hcode.2 hstate.2
    refine ⟨emitted :: members, ?_, .cons hhead hheads⟩
    rw [stateMembers, hfirst, ok_bind, hmembers]
    rfl

/-- The members of a class are emitted for every state of texts, and each method or getter keeps the
    head of its definition exactly when its modifier is no member, or it has none and its signature
    is plain. -/
theorem definition_heads_emitted (hnames : ∀ n ∈ m.names, IsName n)
    (hcode : ∀ entry ∈ state, entry.2.code.IsText) (hstate : ∀ entry ∈ state, entry.1 ∈ m.names) :
    ∃ members : List Text, classMembers m.classCode state = .ok (join "\n" members) ∧
      List.Forall₂ (EmitsHead m) state members := by
  obtain ⟨members, hmembers, hheads⟩ := exists_stateMembers_emitting hnames hcode hstate
  refine ⟨members, ?_, hheads⟩
  rw [classMembers, hmembers, ok_bind, joinMembers_texts]

def picker : Members := ⟨[], ["pick"], [], [], []⟩

/-- The method `pick` with the parameters. -/
def pickState (parameters : Text) : Entries StateValue :=
  [("pick", ⟨.str ("pick(" ++ parameters ++ ") \x7b return item; \x7d"), .method⟩)]

def bareHead : DefinitionHead :=
  ⟨[], [], [], [], ⟨by decide, by decide, by decide⟩, .inl ⟨rfl, rfl⟩⟩

theorem picker_names : ∀ n ∈ picker.names, IsName n := by
  unfold IsName
  decide

theorem pickState_members (parameters : Text) :
    (∀ entry ∈ pickState parameters, entry.2.code.IsText) ∧
      ∀ entry ∈ pickState parameters, entry.1 ∈ picker.names :=
  ⟨List.forall_mem_singleton.mpr ⟨_, rfl⟩, List.forall_mem_singleton.mpr List.mem_cons_self⟩

theorem definition_heads_emitted_pick : ∃ emitted : Text,
    classMembers picker.classCode (pickState "item") = .ok emitted ∧
      bareHead.text "pick" <+: emitted := by
  obtain ⟨members, hmembers, hheads⟩ :=
    definition_heads_emitted picker_names (pickState_members "item").1 (pickState_members "item").2
  obtain ⟨emitted, none, hhead, hnone, rfl⟩ := List.forall₂_cons_left_iff.mp hheads
  obtain rfl := List.forall₂_nil_left_iff.mp hnone
  have hkept : bareHead.IsKept picker.names "item) \x7b return item; \x7d" :=
    .inr ⟨rfl, DefinitionHead.shows_eq_true.mp (by decide : bareHead.shows _ = true)⟩
  exact ⟨emitted, hmembers, (hhead rfl bareHead _ rfl).1.mpr hkept⟩

/-- A call among the default values hides that a method is defined, and the class body is broken. -/
theorem called_default_head_not_kept : ∃ emitted : Text,
    classMembers picker.classCode (pickState "item = first()") = .ok emitted ∧
      emitted = "this.pick(item = first()) \x7b return item; \x7d" ∧
      ¬ bareHead.text "pick" <+: emitted := by
  have hnames : Relocatable "this" picker.names := by
    unfold Relocatable IsName
    decide
  have hquote : ∀ c ∈ ofString "pick(item = first()) \x7b return item; \x7d",
      isNotQuote c = true := by decide
  have hrun : relocateMembers picker.names instanceLead (.before instanceLead)
      "pick(item = first()) \x7b return item; \x7d" =
      ofString "this.pick(item = first()) \x7b return item; \x7d" := by
    change relocateMembers picker.names (receptor "this") (.before (receptor "this")) _ = _
    rw [relocateMembers_eq ⟨by decide, by decide⟩ hnames, mapPlain_of_noQuote (by decide) hquote]
    decide +kernel
  refine ⟨_, ?_, rfl, by decide⟩
  have hcode := classCode_text (m := picker) (s := "pick(item = first()) \x7b return item; \x7d")
    (by decide)
  rw [hrun] at hcode
  have hmember : stateMembers picker.classCode " = " ";" (pickState "item = first()") = .ok
      ([ofString "this.pick(item = first()) \x7b return item; \x7d"].map .str) := by
    rw [pickState, stateMembers, stateMember]
    change (picker.classCode (.str "pick(item = first()) \x7b return item; \x7d") >>= _) >>= _ = _
    rw [hcode]
    rfl
  rw [classMembers, hmember, ok_bind, joinMembers_texts]
  rfl

end ElementCompiler.Module
