import ElementCompiler.Proofs.Markup.EncodedHandlers
import ElementCompiler.Proofs.Text.Braces

set_option autoImplicit false

/-!
The braces of handlers. Renaming the parameter leaves them balanced unless the parameter itself has
braces, and so does everything that is done to the code afterwards, except for taking the braces off
a handler whose last brace does not close the first.
-/

namespace ElementCompiler.Markup

open Attempt Snippet Text

section Renaming

variable {name new code s t before : Text} {c : CodePoint} {d e : Nat}

/-- What is renamed takes its characters along, once for each place. -/
theorem count_substituteFrom (hnew : c ∉ new) (name : Text) (place skip : Nat) (before s : Text) :
    (substituteFrom name (fun _ _ => new) skip before s).count c + (s.take skip).count c +
      (placesFrom name place skip before s).length * name.count c = s.count c := by
  have hnone : new.count c = 0 := List.count_eq_zero.mpr hnew
  induction s generalizing place skip before with
  | nil =>
    cases skip with
    | succ skip => simp [substituteFrom, placesFrom]
    | zero =>
      cases hoccurs : occursAt? name before [] with
      | none => simp [substituteFrom, placesFrom, hoccurs]
      | some after =>
        obtain ⟨rfl, _⟩ := List.append_eq_nil_iff.mp (of_occursAt? hoccurs).1.symm
        simp [substituteFrom, placesFrom, hoccurs, hnone]
  | cons d cs ih =>
    cases skip with
    | succ skip =>
      have hcs := ih (place + 1) skip (d :: before)
      rw [substituteFrom, placesFrom, List.take_succ_cons, List.count_cons, List.count_cons]
      omega
    | zero =>
      cases hoccurs : occursAt? name before (d :: cs) with
      | none =>
        have hcs := ih (place + 1) 0 (d :: before)
        rw [List.take_zero, List.count_nil] at hcs
        simp only [substituteFrom, placesFrom, hoccurs, List.take_zero, List.count_nil, List.count_cons,
          Option.isSome_none, Bool.false_eq_true, if_false]
        omega
      | some after =>
        rw [substituteFrom, placesFrom, hoccurs]
        simp only [Option.isSome_some, if_true, List.count_append, hnone, List.take_zero, List.count_nil,
          List.length_cons, Nat.succ_mul]
        cases name with
        | nil =>
          have hcs := ih (place + 1) 0 (d :: before)
          simp only [List.take_zero, List.count_nil] at hcs
          simp only [List.isEmpty_nil, if_true, List.length_nil, List.count_nil, List.count_cons]
          omega
        | cons p ps =>
          obtain ⟨hfirst, hrest⟩ : p = d ∧ cs = ps ++ after := by
            simpa [eq_comm] using (of_occursAt? hoccurs).1
          have hcs := ih (place + 1) ps.length (d :: before)
          have hname : (p :: ps).count c = ps.count c + if d == c then 1 else 0 := by
            rw [hfirst, List.count_cons]
          rw [show cs.take ps.length = ps by rw [hrest, List.take_left]] at hcs
          simp only [List.isEmpty_cons, Bool.false_eq_true, if_false, List.length_cons, Nat.add_sub_cancel]
          rw [List.count_cons (l := cs)]
          omega

theorem count_substitute (hnew : c ∉ new) (name code : Text) :
    (substitute name (fun _ _ => new) code).count c + (placesFrom name 0 0 [] code).length * name.count c =
      code.count c := by
  have hcount := count_substituteFrom hnew name 0 0 [] code
  rwa [List.take_zero, List.count_nil, Nat.add_zero] at hcount

/-- Balanced code stays balanced where the name is as even as what is written for it. -/
theorem depthAfter?_rewritten {writes : Text → Text → Prop}
    (hwrites : ∀ old new, writes old new → IsEven old ∧ IsBraceFree new) (h : Rewritten writes before s t)
    (hs : depthAfter? d s = some e) : depthAfter? d t = some e := by
  induction h generalizing d with
  | nil => exact hs
  | copy _ ih =>
    rw [depthAfter?_cons, Option.bind_eq_some_iff] at hs ⊢
    obtain ⟨m, hm, hs⟩ := hs
    exact ⟨m, hm, ih hs⟩
  | write _ _ hnew _ ih =>
    obtain ⟨heven, hfree⟩ := hwrites _ _ hnew
    rw [depthAfter?_append, depthAfter?_braceFree hfree, Option.bind_some]
    exact ih (depthAfter?_even heven hs)

end Renaming

section Unwrapping

variable {s : Text}

/-- A text that begins and ends with a brace loses both, and any other stays as it is. -/
theorem unwrapBlock_cases (s : Text) :
    (∃ inner, trim s = .char '\x7b' :: (inner ++ [.char '\x7d']) ∧ unwrapBlock s = trim inner) ∨
      (∀ cs, trim s = .char '\x7b' :: cs → cs.getLast? ≠ some (.char '\x7d')) ∧ unwrapBlock s = s := by
  by_cases hopen : ∃ cs, trim s = .char '\x7b' :: cs
  · obtain ⟨cs, hcs⟩ := hopen
    have hunwrap : unwrapBlock s = if cs.getLast? = some (.char '\x7d') then trim cs.dropLast else s :=
      unwrapBlock_braced hcs
    rw [hunwrap]
    by_cases hclose : cs.getLast? = some (.char '\x7d')
    · obtain ⟨inner, rfl⟩ := List.getLast?_eq_some_iff.mp hclose
      exact .inl ⟨inner, hcs, by rw [if_pos hclose, List.dropLast_concat]⟩
    · refine .inr ⟨fun cs' hcs' => ?_, if_neg hclose⟩
      rwa [(List.cons.inj (hcs.symm.trans hcs')).2] at hclose
  · refine .inr ⟨fun cs hcs => absurd ⟨cs, hcs⟩ hopen, ?_⟩
    unfold unwrapBlock
    split
    next rest hrest => exact absurd ⟨rest, hrest⟩ hopen
    next => rfl

/-- Braces that are taken off a balanced text have to match each other. -/
theorem isBalanced_unwrapBlock (hs : IsBalanced s) : IsBalanced (unwrapBlock s) ↔ OuterBracesMatch s := by
  unfold OuterBracesMatch
  rcases unwrapBlock_cases s with ⟨inner, htrim, hinner⟩ | ⟨hbare, hsame⟩
  · rw [hinner, isBalanced_trim, ← afterBlock?_last, htrim]
    constructor
    · intro hlast cs hcs _
      rwa [← (List.cons.inj hcs).2]
    · intro hmatch
      exact hmatch _ rfl List.getLast?_concat
  · rw [hsame]
    exact ⟨fun _ cs hcs hclose => absurd hclose (hbare cs hcs), fun _ => hs⟩

/-- Taking braces off leaves as many of one kind as of the other only if there were as many. -/
theorem isEven_of_unwrapBlock (h : IsBalanced (unwrapBlock s)) : IsEven s := by
  rcases unwrapBlock_cases s with ⟨inner, htrim, hinner⟩ | ⟨_, hsame⟩
  · rw [hinner, isBalanced_trim] at h
    have heven := h.isEven
    rw [← isEven_trim, htrim]
    simp only [IsEven] at heven ⊢
    simp [List.count_append, heven]
  · rw [hsame] at h
    exact h.isEven

end Unwrapping

section Handlers

variable {argument code : Text}

theorem eventToken_braceFree : IsBraceFree eventToken := by
  unfold IsBraceFree
  decide

/-- Renaming keeps balanced code balanced when the parameter has no part in its braces. -/
theorem isBalanced_substitute (hcode : IsBalanced code) (hargument : uses code argument = true → IsEven argument) :
    IsBalanced (substitute argument (fun _ _ => eventToken) code) := by
  cases hused : uses code argument with
  | false => rwa [substitute_of_unused _ hused]
  | true =>
    refine depthAfter?_rewritten ?_ (rewritten_substituteFrom argument _ [] code) hcode
    rintro _ _ ⟨rfl, _, _, rfl⟩
    exact ⟨hargument hused, eventToken_braceFree⟩

theorem isEven_of_substitute (hcode : IsBalanced code)
    (h : IsEven (substitute argument (fun _ _ => eventToken) code)) (hused : uses code argument = true) :
    IsEven argument := by
  have hopen := count_substitute (by decide : CodePoint.char '\x7b' ∉ eventToken) argument code
  have hclose := count_substitute (by decide : CodePoint.char '\x7d' ∉ eventToken) argument code
  have hplaces : 0 < (placesFrom argument 0 0 [] code).length := by
    rw [uses, Bool.not_eq_true', List.isEmpty_eq_false_iff] at hused
    exact List.length_pos_of_ne_nil hused
  have heven := hcode.isEven
  rw [IsEven] at h heven
  exact Nat.eq_of_mul_eq_mul_left hplaces (by omega)

theorem uses_nil (h : uses [] argument = true) : argument = [] := by
  cases argument with
  | nil => rfl
  | cons c cs => cases h

/-- The same for the renaming of a parameter in code without literals. -/
theorem isBalanced_renameArgument (hcode : IsBalanced code) (hplain : ∀ c ∈ code, isNotQuote c = true)
    (hargument : uses code argument = true → IsEven argument) :
    IsBalanced (renameArgument argument eventToken code) := by
  by_cases hne : code = []
  · rwa [hne, renameArgument, mapPlain_nil, ← hne]
  · rw [renameArgument, mapPlain_of_noQuote hne hplain]
    exact isBalanced_substitute hcode hargument

theorem isEven_of_renameArgument (hcode : IsBalanced code) (hplain : ∀ c ∈ code, isNotQuote c = true)
    (h : IsEven (renameArgument argument eventToken code)) (hused : uses code argument = true) :
    IsEven argument := by
  by_cases hne : code = []
  · rw [hne] at hused
    rw [uses_nil hused]
    rfl
  · rw [renameArgument, mapPlain_of_noQuote hne hplain] at h
    exact isEven_of_substitute hcode h hused

/-- What is done to a handler after its braces are removed adds blanks, or a call without braces. -/
theorem isBalanced_shown (names : List Text) (value : Text) :
    IsBalanced (indentRest 2 (if names.contains (trim value) then trim value ++ "()" else value)) ↔
      IsBalanced value := by
  rw [IsBalanced, depthAfter?_indentRest, ← IsBalanced]
  split
  next =>
    have hcall : IsBraceFree (ofString "()") := by unfold IsBraceFree; decide
    unfold IsBalanced
    rw [depthAfter?_append, depthAfter?_trim]
    simp only [depthAfter?_braceFree hcall, Option.bind_fun_some]
  next => rfl

theorem emitEvent_eq {key : Text} {b : Binding} {n : Node} {place : Place} (hcode : b.code = .str code)
    (hargument : eventArgument b.arguments = .ok argument) (hshown : suppressesEvents n = .ok false) :
    emitEvent key b n place = .ok (.single (eventName key n ++ ".delegate")
      (indentRest 2 (if place.callableNames.contains (trim (handledCode argument code))
        then trim (handledCode argument code) ++ "()" else handledCode argument code))) := by
  rw [emitEvent, hshown, ok_bind, hargument, hcode]
  rfl

end Handlers

/-- The handler emitted for balanced code without literals is balanced exactly when the parameter, if it
    is used, has as many opening as closing braces, and the braces that are taken off match each other. -/
theorem emitted_handler_balanced (key code argument : Text) (b : Binding) (n : Node) (place : Place)
    (hcode : b.code = .str code) (hplain : ∀ c ∈ code, isNotQuote c = true) (hbalanced : IsBalanced code)
    (hargument : eventArgument b.arguments = .ok argument) (hshown : suppressesEvents n = .ok false) :
    ∃ value, emitEvent key b n place = .ok (.single (eventName key n ++ ".delegate") value) ∧
      (IsBalanced value ↔ (uses code argument = true → IsEven argument) ∧
        OuterBracesMatch (renameArgument argument eventToken code)) := by
  refine ⟨_, emitEvent_eq hcode hargument hshown, ?_⟩
  rw [isBalanced_shown]
  constructor
  · intro hvalue
    have heven : uses code argument = true → IsEven argument :=
      isEven_of_renameArgument hbalanced hplain (isEven_of_unwrapBlock hvalue)
    exact ⟨heven, (isBalanced_unwrapBlock (isBalanced_renameArgument hbalanced hplain heven)).mp hvalue⟩
  · rintro ⟨heven, hmatch⟩
    exact (isBalanced_unwrapBlock (isBalanced_renameArgument hbalanced hplain heven)).mpr hmatch

/-- An element without properties or content. -/
def bareButton : Node := ⟨.str "button", [], [], [], .empty, none, []⟩

theorem block_handler_balanced : ∃ value,
    emitEvent "onClick" (.ofCode (.str "\x7b open(event); \x7d") .normal) bareButton .start =
      .ok (.single (eventName "onClick" bareButton ++ ".delegate") value) ∧ IsBalanced value := by
  obtain ⟨value, hvalue, hiff⟩ := emitted_handler_balanced "onClick" "\x7b open(event); \x7d" "event"
    (.ofCode (.str "\x7b open(event); \x7d") .normal) bareButton .start rfl (by decide) rfl rfl rfl
  refine ⟨value, hvalue, hiff.mpr ⟨fun _ => rfl, fun cs hcs _ => ?_⟩⟩
  rw [renameArgument, mapPlain_of_noQuote (by decide) (by decide)] at hcs
  rw [← (List.cons.inj hcs).2]
  rfl

/-- Two blocks one after the other lose the first brace of the one and the last of the other. -/
theorem two_blocks_unbalanced : IsBalanced "\x7b a(); \x7d \x7b b(); \x7d" ∧
    emitEvent "onClick" (.ofCode (.str "\x7b a(); \x7d \x7b b(); \x7d") .normal) bareButton .start =
      .ok (.single "click.delegate" "a(); \x7d \x7b b();") ∧
    ¬ IsBalanced "a(); \x7d \x7b b();" := by
  have hargument : eventArgument .null = .ok "event" := rfl
  refine ⟨rfl, ?_, nofun⟩
  rw [emitEvent_eq rfl hargument rfl, handledCode, renameArgument,
    mapPlain_of_noQuote (by decide) (by decide)]
  rfl

end ElementCompiler.Markup
