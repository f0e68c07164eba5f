import ElementCompiler.Proofs.Component.Refs
import ElementCompiler.Proofs.Module.Lowering
import ElementCompiler.Proofs.Snippet.PropReads

set_option autoImplicit false

/-!
A snippet that is one member of the state. A pass for another name finds nothing in it, since the
member stands behind its group, so it reaches the view as the bare name of the member and a published
value as that name behind the instance.
-/

namespace ElementCompiler

open Attempt Text

namespace Snippet

def stateGroup : Text := "state"

/-- The reference to a member of the state. -/
def stateReference (x : Text) : Text := stateGroup ++ .char '.' :: x

theorem isName_stateGroup : IsName stateGroup := isName_of_mem_memberGroups List.mem_cons_self

section Member

variable {x name : Text} (hx : IsName x)
include hx

theorem isJoined_stateReference : ∀ c ∈ stateReference x, isJoined c = true :=
  List.forall_mem_append.mpr ⟨isName_stateGroup.isJoined, List.forall_mem_cons.mpr ⟨rfl, hx.isJoined⟩⟩

theorem isNotQuote_stateReference : ∀ c ∈ stateReference x, isNotQuote c = true :=
  fun c hc => isNotQuote_of_isJoined (isJoined_stateReference hx c hc)

/-- What does not occur at the start of the reference occurs nowhere in it. -/
theorem substitute_stateReference (hstart : occursAt? name [] (stateReference x) = none)
    (written : Text → Text → Text) : substitute name written (stateReference x) = stateReference x := by
  have hjoined := isJoined_stateReference hx
  obtain ⟨c, cs, heq⟩ : ∃ c cs, stateReference x = c :: cs := ⟨_, _, rfl⟩
  rw [heq] at hstart hjoined ⊢
  rw [List.forall_mem_cons] at hjoined
  have hrest : substituteFrom name written 0 [c] (cs ++ []) = _ :=
    substituteFrom_joined written hjoined.2 (show headIs isJoined [c] = true from hjoined.1) []
  have hend : headIs isJoined (cs.reverse ++ [c]) = true := by
    cases hcs : cs.reverse with
    | nil => exact hjoined.1
    | cons d ds =>
      have hd : d ∈ cs := List.mem_reverse.mp (hcs ▸ List.mem_cons_self)
      exact hjoined.2 d hd
  have hnone : substituteFrom name written 0 (cs.reverse ++ [c]) [] = [] := by
    rw [substituteFrom, occursAt?_joined name hend]
    rfl
  rw [hnone, List.append_nil] at hrest
  rw [substitute, substituteFrom_of_none written hstart, hrest]

theorem replaceOne_stateReference (hstart : occursAt? name [] (stateReference x) = none)
    (written : Text) : replaceOne written name (stateReference x) = stateReference x := by
  rw [replaceOne, mapPlain_of_noQuote (by simp [stateReference]) (isNotQuote_stateReference hx)]
  exact substitute_stateReference hx hstart _

theorem relocateEach_stateReference {fields : List (Text × Text)} (lead : Text)
    (hfields : ∀ f ∈ fields, IsName f.1 ∧ f.1 ≠ stateGroup) :
    relocateEach lead fields (.str (stateReference x)) = .ok (.str (stateReference x)) := by
  induction fields with
  | nil => rfl
  | cons f fields ih =>
    obtain ⟨⟨hname, hne⟩, hrest⟩ := List.forall_mem_cons.mp hfields
    have hslash : CodePoint.char '\\' ∉ f.1 := fun hmem => absurd (hname.2 _ hmem) (by decide)
    have hpoint : headIs continuesName (.char '.' :: x) = false := rfl
    have hbare : occursAt? f.1 [] (stateReference x) = none := by
      rw [stateReference, occursAt?_name hname isName_stateGroup hpoint rfl, if_neg hne]
    have hcurrent : occursAt? (f.1 ++ ".current") [] (stateReference x) = none := by
      have hafter : after? (f.1 ++ ".current") (stateGroup ++ .char '.' :: x) = none := by
        rw [after?_name hname.2 isName_stateGroup.2 (by decide) (by decide) hpoint, if_neg hne]
      rw [stateReference, occursAt?, hafter]
      rfl
    have hempty : f.1.isEmpty = false := by simpa using hname.1
    have hstep : relocateRef lead f.1 f.2 (.str (stateReference x)) = .ok (stateReference x) := by
      rw [relocateRef_eq hslash, substitute_stateReference hx hcurrent]
      simp only [hempty, replaceOne_stateReference hx hbare, if_neg Bool.false_ne_true]
    rw [relocateEach, hstep]
    exact ih hrest

theorem relocate_stateReference (lead : Text) {names : List Text}
    (hnames : ∀ name ∈ names, occursAt? name [] (stateReference x) = none) :
    relocate lead names (stateReference x) = stateReference x := by
  unfold relocate replaceNames
  induction names with
  | nil => rfl
  | cons name names ih =>
    obtain ⟨hname, hrest⟩ := List.forall_mem_cons.mp hnames
    rw [List.foldl_cons, replaceOne_stateReference hx hname, ite_self]
    exact ih hrest

end Member

end Snippet

namespace Module

open Snippet

variable {m : Members} {x : Text}

/-- Names of outputs begin like those of handlers. -/
theorem occursAt?_output {name : Text} (h : isOutputName name = true) (x : Text) :
    occursAt? name [] (stateReference x) = none := by
  unfold isOutputName at h
  split at h
  next c cs hafter =>
    rw [eq_append_of_after? hafter]
    rfl
  next => cases h

theorem encodeQuotes_of_isName (hx : IsName x) : Markup.encodeQuotes x = x := by
  have hquote : CodePoint.char '"' ∉ x := fun hmem => absurd (hx.2 _ hmem) (by decide)
  exact replaceFrom_eq_self hquote

/-- A member of the state is shown by its name. -/
theorem bindingCode_stateReference (houtputs : ∀ name ∈ m.outputVars, isOutputName name = true)
    (hx : IsName x) (hstart : headIs (·.is isNameStart) x = true) :
    m.bindingCode (.str (stateReference x)) = .ok (.str x) := by
  have hrelocated : relocate instanceLead m.outputVars.eraseDups (stateReference x) = stateReference x :=
    relocate_stateReference hx _ fun name hname =>
      occursAt?_output (houtputs name (List.mem_eraseDups.mp hname)) x
  have hstripped : strip (.before "") (stateReference x) = x :=
    strip_member _ List.mem_cons_self hx hstart
  have hshown : onGiven (relocateMembers m.outputVars instanceLead (.before "")) (.str (stateReference x)) =
      .ok (.str x) := by
    rw [onGiven, relocateMembers, hrelocated, hstripped]
    rfl
  rw [Members.bindingCode, hshown]
  exact congrArg (fun s => Except.ok (Json.str s)) (encodeQuotes_of_isName hx)

/-- A member of the state is published behind the instance, unless it is named like the children. -/
theorem publishedCode_stateReference (hx : IsName x) (hstart : headIs (·.is isNameStart) x = true) :
    publishedCode (.str (stateReference x)) =
      .ok (.str (if x = childrenProp then "$$slots.default" else instanceLead ++ x)) := by
  have hstripped : strip (.withChildren instanceLead "$$slots.default") (stateReference x) =
      if x = childrenProp then ofString "$$slots.default" else instanceLead ++ x :=
    strip_member _ List.mem_cons_self hx hstart
  rw [publishedCode, onGiven, hstripped]
  rfl

theorem isOutputName_of_outputNames {props : List Json} {names : List Text}
    (h : outputNames props = .ok names) : ∀ name ∈ names, isOutputName name = true := by
  induction props generalizing names with
  | nil =>
    obtain rfl := Except.ok.inj h
    rintro _ ⟨⟩
  | cons prop props ih =>
    obtain ⟨first, _, h⟩ := bind_eq_ok.mp h
    obtain ⟨others, hothers, h⟩ := bind_eq_ok.mp h
    obtain rfl := Except.ok.inj h
    split
    next hfirst => exact List.forall_mem_cons.mpr ⟨hfirst, ih hothers⟩
    next => exact ih hothers

theorem isOutputName_of_collect {o : CompileOptions} {c : Component}
    (h : Members.collect o c = .ok m) : ∀ name ∈ m.outputVars, isOutputName name = true := by
  obtain ⟨props, _, h⟩ := bind_eq_ok.mp h
  obtain ⟨experimental, _, h⟩ := bind_eq_ok.mp h
  split at h
  next =>
    obtain ⟨names, hnames, h⟩ := bind_eq_ok.mp h
    obtain ⟨domRefs, _, h⟩ := bind_eq_ok.mp h
    obtain rfl := Except.ok.inj h
    exact isOutputName_of_outputNames hnames
  next =>
    obtain ⟨names, hnames, h⟩ := bind_eq_ok.mp h
    obtain rfl := Except.ok.inj hnames
    obtain ⟨domRefs, _, h⟩ := bind_eq_ok.mp h
    obtain rfl := Except.ok.inj h
    rintro _ ⟨⟩

end Module
end ElementCompiler
