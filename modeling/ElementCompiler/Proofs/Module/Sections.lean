import ElementCompiler.Module.Sections
import ElementCompiler.Proofs.Component.Names
import ElementCompiler.Proofs.Module.Lowering

set_option autoImplicit false

/-!
The sections of a class and its context methods are written for every component with texts.
-/

namespace ElementCompiler.Module

open Attempt Text

theorem isTextMapper_pure : IsTextMapper pure := fun s => ⟨s, rfl⟩

section State

variable {mapper : CodeMapper} {state : Entries StateValue}

theorem stateMembers_eq_mapM (between after : Text) (state : Entries StateValue) :
    stateMembers mapper between after state =
      state.mapM fun s => stateMember mapper between after s.1 s.2 := by
  induction state with
  | nil => rfl
  | cons s state ih => rw [stateMembers, List.mapM_cons, ih]

theorem exists_memberText (hmapper : IsTextMapper mapper) {v : StateValue} (hv : v.code.IsText)
    (between after name : Text) :
    ∃ member : Text, stateMember mapper between after name v = .ok (.str member) := by
  obtain ⟨s, hs⟩ := hv
  obtain ⟨t, ht⟩ := hmapper s
  rw [stateMember, hs, ht, ok_bind]
  split <;> exact ⟨_, rfl⟩

theorem exists_stateMembers (hmapper : IsTextMapper mapper) (h : ∀ s ∈ state, s.2.code.IsText)
    (between after : Text) : ∃ members : List Text,
      stateMembers mapper between after state = .ok (members.map .str) := by
  obtain ⟨members, hmembers, _⟩ := exists_mapM_map (P := fun _ => True) fun s hs => by
    obtain ⟨member, hmember⟩ := exists_memberText hmapper (h s hs) between after s.1
    exact ⟨member, hmember, trivial⟩
  exact ⟨members, (stateMembers_eq_mapM between after state).trans hmembers⟩

theorem mapM_textOr_strs (fault : Fault) (texts : List Text) :
    (texts.map Json.str).mapM (Json.textOr fault) = .ok texts := by
  rw [mapM_eq_ok, List.forall₂_map_left_iff]
  exact List.forall₂_same.mpr fun _ _ => rfl

theorem joinMembers_texts (sep : Text) (members : List Text) :
    joinMembers sep (members.map .str) = .ok (join sep members) := by
  rw [joinMembers, mapM_textOr_strs]
  rfl

theorem classMembers_texts {members : List Text}
    (h : stateMembers mapper " = " ";" state = .ok (members.map .str)) :
    classMembers mapper state = .ok (join "\n" members) := by
  rw [classMembers, h, ok_bind, joinMembers_texts]

theorem exists_classMembers (hmapper : IsTextMapper mapper) (h : ∀ s ∈ state, s.2.code.IsText) :
    ∃ s, classMembers mapper state = .ok s := by
  obtain ⟨members, hmembers⟩ := exists_stateMembers hmapper h " = " ";"
  exact ⟨_, classMembers_texts hmembers⟩

theorem exists_objectLiteral (hmapper : IsTextMapper mapper) (h : ∀ s ∈ state, s.2.code.IsText) :
    ∃ s, objectLiteral mapper state = .ok s := by
  obtain ⟨members, hmembers⟩ := exists_stateMembers hmapper h ": " ""
  rw [objectLiteral, hmembers, ok_bind]
  split
  next => exact ⟨_, rfl⟩
  next => exact exists_bind ⟨_, joinMembers_texts ",\n" members⟩ fun _ _ => ⟨_, rfl⟩

end State

theorem exists_bridge {context : ContextSpec} (h : context.WritesTexts) :
    ∃ bridge, ContextBridge.build context publishedCode = .ok bridge := by
  have hpublished : IsTextMapper publishedCode := isTextMapper_onGiven _
  refine exists_bind (exists_mapM fun w hw => ?_) fun writes _ => ⟨_, rfl⟩
  obtain ⟨href, hvalue⟩ := h w hw
  refine exists_bind ?_ fun value _ => ⟨_, rfl⟩
  rw [writtenValue]
  split
  next v vs hes =>
    refine exists_bind (exists_objectLiteral isTextMapper_pure (hvalue _ hes)) fun s _ => ?_
    exact hpublished.exists_ok ⟨s, rfl⟩
  next =>
    split
    next hgiven => exact hpublished.exists_ok (href.isText hgiven)
    next => exact ⟨_, rfl⟩

section Sections

variable {c : Component}

theorem sections_eq_ok {p : SectionParts} {ss : List Text} : sections c p = .ok ss ↔
    ∃ props valueRefs state construct attached observer detached,
      p.bindableProps.mapM (propDeclaration c) = .ok props ∧
      p.valueRefs.mapM (valueRefDeclaration c p.members.classCode) = .ok valueRefs ∧
      classMembers p.members.classCode c.state = .ok state ∧
      constructorSection c p.injectables p.bridge = .ok construct ∧
      attachedSection c p.bridge = .ok attached ∧ observerSection c = .ok observer ∧
      detachedSection c = .ok detached ∧ ss = (([
        join "\n" props,
        join "\n" (p.assignedImports.map fun name => name.display ++ " = " ++ name.display ++ ";"),
        join "\n" (p.outputs.map fun output => output ++ ";"),
        join "\n" (p.members.domRefs.map fun name => name ++ ": HTMLElement;"),
        join "\n" valueRefs].filter fun s => !s.isEmpty) ++
          ([state].filter fun s => !s.isEmpty) ++
          ([construct, attached, observer, detached, p.bridge.readMethod, p.bridge.writeMethod].filter
            fun s => !s.isEmpty)) := by
  rw [sections]
  simp only [bind_eq_ok, exists_and_left, pure, Except.pure, Except.ok.injEq, ← List.filter_append,
    eq_comm (a := ss)]
  rfl

theorem exists_propDeclaration (htype : c.propsTypeRef.IsOptionalText) (prop : Text) :
    ∃ s, propDeclaration c prop = .ok s := by
  refine exists_bind ?_ fun type _ => ⟨_, rfl⟩
  rw [propType]
  split
  next hgiven =>
    obtain ⟨s, hs⟩ := htype.isText (Bool.and_eq_true_iff.mp hgiven).1
    rw [hs]
    exact ⟨_, rfl⟩
  next => exact ⟨_, rfl⟩

theorem exists_valueRefDeclaration (hc : c.HasTexts) {mapper : CodeMapper}
    (hmapper : IsTextMapper mapper) {name : Text} (hname : name ∈ Entries.keys c.refs) :
    ∃ s, valueRefDeclaration c mapper name = .ok s := by
  rw [valueRefDeclaration]
  split
  next hnone =>
    have hhas := (Entries.has_iff_mem_keys c.refs name).mpr hname
    rw [Entries.has, hnone] at hhas
    cases hhas
  next spec hspec =>
    obtain ⟨k, hk⟩ := Entries.mem_of_get? hspec
    have hargument : spec.argument.IsOptionalText := hc.refs _ hk
    dsimp only
    split
    next hgiven =>
      exact exists_bind (hmapper.exists_ok (hargument.isText hgiven)) fun code _ => ⟨_, rfl⟩
    next => exact ⟨_, rfl⟩

theorem exists_constructorSection (hc : c.HasTexts) (injectables : List Text)
    (bridge : ContextBridge) : ∃ s, constructorSection c injectables bridge = .ok s := by
  rw [constructorSection]
  split
  next => exact ⟨_, rfl⟩
  next =>
    dsimp only
    split
    next => exact ⟨_, rfl⟩
    next code hcode =>
      obtain ⟨s, hs⟩ := hc.hooks code (by simp [Hooks.codes, hcode])
      rw [hs]
      exact ⟨_, rfl⟩

theorem exists_attachedSection (hc : c.HasTexts) (bridge : ContextBridge) :
    ∃ s, attachedSection c bridge = .ok s := by
  rw [attachedSection]
  split
  next => exact ⟨_, rfl⟩
  next =>
    refine exists_bind (exists_bind (Json.mapM_textOr (fun j hj => ?_) _) fun _ _ => ⟨_, rfl⟩)
      fun _ _ => ⟨_, rfl⟩
    rcases List.mem_append.mp (List.mem_of_mem_filter hj) with hj | hj
    · exact hc.hooks j (by simp [Hooks.codes, Option.mem_toList.mp hj])
    · exact ⟨_, List.mem_singleton.mp hj⟩

theorem exists_observerSection (hc : c.HasTexts) : ∃ s, observerSection c = .ok s := by
  rw [observerSection]
  split
  next => exact ⟨_, rfl⟩
  next updates hupdates =>
    have hkeys : (c.hooks.onUpdate.flatMap UpdateHook.deps).all Json.isKey = true := by
      rw [List.all_eq_true]
      intro d hd
      obtain ⟨u, hu, hd⟩ := List.mem_flatMap.mp hd
      obtain ⟨s, rfl⟩ := hc.deps u hu d hd
      rfl
    have hcodes : ∀ u ∈ c.hooks.onUpdate, ∃ s, u.code.textOr .wrongKind = .ok s := fun u hu =>
      (hc.hooks u.code (List.mem_append_right _ (List.mem_map_of_mem hu))).textOr _
    refine exists_bind ?_ fun observed _ => exists_bind (exists_mapM hcodes) fun codes _ => ⟨_, rfl⟩
    rw [observedNames, if_pos hkeys]
    exact ⟨_, rfl⟩

theorem exists_detachedSection (hc : c.HasTexts) : ∃ s, detachedSection c = .ok s := by
  rw [detachedSection]
  split
  next => exact ⟨_, rfl⟩
  next code hcode =>
    obtain ⟨s, hs⟩ := hc.hooks code (by simp [Hooks.codes, hcode])
    rw [hs]
    exact ⟨_, rfl⟩

theorem exists_sections (hc : c.HasTexts) (htype : c.propsTypeRef.IsOptionalText)
    (p : SectionParts) (hrefs : ∀ name ∈ p.valueRefs, name ∈ Entries.keys c.refs) :
    ∃ ss, sections c p = .ok ss := by
  have hmapper : IsTextMapper p.members.classCode := isTextMapper_onGiven _
  refine exists_bind (exists_mapM fun prop _ => exists_propDeclaration htype prop) fun _ _ => ?_
  refine exists_bind (exists_mapM fun name hname =>
    exists_valueRefDeclaration hc hmapper (hrefs name hname)) fun _ _ => ?_
  refine exists_bind (exists_classMembers hmapper hc.state) fun _ _ => ?_
  refine exists_bind (exists_constructorSection hc _ _) fun _ _ => ?_
  refine exists_bind (exists_attachedSection hc _) fun _ _ => ?_
  refine exists_bind (exists_observerSection hc) fun _ _ => ?_
  exact exists_bind (exists_detachedSection hc) fun _ _ => ⟨_, rfl⟩

end Sections
end ElementCompiler.Module
