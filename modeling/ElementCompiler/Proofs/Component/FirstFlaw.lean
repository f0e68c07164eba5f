import ElementCompiler.Proofs.Component.WellFormed

set_option autoImplicit false

/-!
The fault that the check of a component ends with. The walk stops at the first node that is not well
formed, and what it says of that node is a malformation, except for a loop over something that is no
text: the check asks whether the code of a collection is blank before it asks whether it is text.
-/

namespace ElementCompiler

open Attempt Text

namespace Node

/-- A node is checked to see whether it is well formed. -/
instance (n : Node) : Decidable n.WellFormed :=
  match h : checkOne [] n with
  | .ok () => .isTrue (checkOne_eq_ok.mp h)
  | .error _ => .isFalse fun hn => by
    rw [checkOne_eq_ok.mpr hn] at h
    cases h

/-- The first node that is not well formed. -/
def firstFlaw? (ns : List Node) : Option Node := ns.find? fun n => ¬ n.WellFormed

/-- A loop whose collection is bound to a value that is no text. -/
def LoopsOverValue (n : Node) : Prop :=
  n.isLoop = true ∧ ∃ b, n.binding? "each" = some b ∧ ¬ b.code.IsText

end Node

/-- Under a name that is given, the first node that is not well formed is a loop over a value. -/
def Component.MeetsValueLoop (c : Component) : Prop :=
  isNamed c.name = true ∧ ∃ n, Node.firstFlaw? c.nodes = some n ∧ n.LoopsOverValue

section Node

variable {n : Node} {ns ms : List Node} {path place : Text} {f : Fault}

theorem firstFlaw?_eq_none : Node.firstFlaw? ns = none ↔ ∀ n ∈ ns, n.WellFormed := by
  simp [Node.firstFlaw?]

theorem firstFlaw?_append_of_wellFormed (h : ∀ n ∈ ns, n.WellFormed) :
    Node.firstFlaw? (ns ++ ms) = Node.firstFlaw? ms := by
  have hnone : Node.firstFlaw? ns = none := firstFlaw?_eq_none.mpr h
  unfold Node.firstFlaw? at hnone ⊢
  rw [List.find?_append, hnone, Option.none_or]

theorem firstFlaw?_append_of_some (h : Node.firstFlaw? ns = some n) (ms : List Node) :
    Node.firstFlaw? (ns ++ ms) = some n := by
  unfold Node.firstFlaw? at h ⊢
  rw [List.find?_append, h, Option.some_or]

theorem isNamed_of_isLoop (h : n.isLoop = true) : isNamed n.name = true := by
  unfold Node.isLoop Json.isText at h
  cases hname : n.name with
  | str s =>
    rw [hname] at h
    rw [eq_of_beq h]
    decide
  | _ =>
    rw [hname] at h
    cases h

theorem not_loopsOverValue (h : n.isLoop = true → n.Iterates) : ¬ n.LoopsOverValue := by
  rintro ⟨hloop, b, hb, hvalue⟩
  obtain ⟨x, code, hx, hcode, _⟩ := h hloop
  obtain rfl := Option.some.inj (hb.symm.trans hx)
  exact hvalue ⟨code, hcode⟩

/-- A check of one node fails with a malformation, unless the node is a loop over a value. -/
def FailsOn (n : Node) (f : Fault) : Prop :=
  (∃ why, f = .malformed why) ∧ ¬ n.LoopsOverValue ∨ f = .missingOperation ∧ n.LoopsOverValue

theorem checkLoop_fault (h : checkLoop n place = .error f) : FailsOn n f := by
  rw [checkLoop] at h
  split at h
  next hloop =>
    split at h
    next hnone =>
      refine .inl ⟨⟨_, (Except.error.inj h).symm⟩, ?_⟩
      rintro ⟨_, b, hb, _⟩
      rw [hnone] at hb
      cases hb
    next b hb =>
      cases hcode : b.code with
      | str code =>
        rw [hcode, Json.textOr_str, ok_bind] at h
        split at h
        next =>
          refine .inl ⟨⟨_, (Except.error.inj h).symm⟩, ?_⟩
          rintro ⟨_, x, hx, hvalue⟩
          obtain rfl := Option.some.inj (hb.symm.trans hx)
          exact hvalue ⟨code, hcode⟩
        next => cases h
      | _ =>
        rw [hcode] at h
        refine .inr ⟨(Except.error.inj h).symm, hloop, b, hb, ?_⟩
        rintro ⟨code, hs⟩
        rw [hcode] at hs
        cases hs
  next => cases h

theorem checkBindings_fault {bs : Entries (Option Binding)} (h : checkBindings place bs = .error f) :
    ∃ why, f = .malformed why := by
  induction bs with
  | nil => cases h
  | cons b bs ih =>
    rw [checkBindings] at h
    split at h
    next => exact ⟨_, (Except.error.inj h).symm⟩
    next => exact ih h

theorem checkBranchEntry_fault {branch : Option Node} {entry : Option Json}
    (h : (match branch, entry with
      | none, some j => if j.isNull then return () else malformed (.branchNotNode place)
      | _, _ => return () : Attempt Unit) = .error f) : ∃ why, f = .malformed why := by
  split at h
  next =>
    split at h
    next => cases h
    next => exact ⟨_, (Except.error.inj h).symm⟩
  next => cases h

theorem checkOne_fault (h : checkOne path n = .error f) : FailsOn n f := by
  rw [checkOne] at h
  cases hnamed : isNamed n.name with
  | false =>
    rw [hnamed] at h
    refine .inl ⟨⟨_, (Except.error.inj h).symm⟩, fun hvalue => ?_⟩
    rw [isNamed_of_isLoop hvalue.1] at hnamed
    cases hnamed
  | true =>
    simp only [hnamed, Bool.not_true, Bool.false_eq_true, if_false] at h
    rcases bind_eq_error.mp h with h | ⟨_, hloop, h⟩
    · exact checkLoop_fault h
    · refine .inl ⟨?_, not_loopsOverValue (checkLoop_eq_ok.mp hloop)⟩
      rcases bind_eq_error.mp h with h | ⟨_, _, h⟩
      · exact checkBindings_fault h
      · split at h
        next => exact checkBranchEntry_fault h
        next => exact checkBranchEntry_fault h
        next => exact ⟨_, (Except.error.inj h).symm⟩

end Node

section Walk

/-- A walk over nodes fails on the first that is not well formed. -/
def FailsOnFirst (ns : List Node) (f : Fault) : Prop :=
  ∃ n, Node.firstFlaw? ns = some n ∧ FailsOn n f

variable {ns ms : List Node} {f : Fault}

theorem FailsOnFirst.append (h : FailsOnFirst ns f) (ms : List Node) : FailsOnFirst (ns ++ ms) f := by
  obtain ⟨n, hn, hfails⟩ := h
  exact ⟨n, firstFlaw?_append_of_some hn ms, hfails⟩

theorem FailsOnFirst.prepend (h : FailsOnFirst ms f) (hns : ∀ n ∈ ns, n.WellFormed) :
    FailsOnFirst (ns ++ ms) f := by
  unfold FailsOnFirst
  rwa [firstFlaw?_append_of_wellFormed hns]

mutual

theorem checkNode_fault {path : Text} (n : Node) (h : checkNode path n = .error f) :
    FailsOnFirst n.subtree f := by
  match n with
  | ⟨name, properties, bindings, children, scope, elseBranch, metadata⟩ =>
    rw [checkNode] at h
    rw [Node.subtree, ← List.singleton_append]
    rcases bind_eq_error.mp h with h | ⟨_, hone, h⟩
    · have hflaw : ¬ Node.WellFormed ⟨name, properties, bindings, children, scope, elseBranch, metadata⟩ := by
        intro hwell
        rw [checkOne_eq_ok.mpr hwell] at h
        cases h
      have hfirst : FailsOnFirst [⟨name, properties, bindings, children, scope, elseBranch, metadata⟩] f :=
        ⟨_, by simp [Node.firstFlaw?, hflaw], checkOne_fault h⟩
      exact hfirst.append _
    · refine FailsOnFirst.prepend ?_ (List.forall_mem_singleton.mpr (checkOne_eq_ok.mp hone))
      rcases bind_eq_error.mp h with h | ⟨_, hbranch, h⟩
      · exact (checkBranch_fault elseBranch h).append _
      · exact (checkNodes_fault children h).prepend ((checkBranch_eq_ok elseBranch).mp hbranch)

theorem checkBranch_fault {path : Text} (branch : Option Node) (h : checkBranch path branch = .error f) :
    FailsOnFirst (Node.branchNodes branch) f := by
  match branch with
  | none => cases h
  | some n => exact checkNode_fault n h

theorem checkNodes_fault {path : Text} (ns : List Node) (h : checkNodes path ns = .error f) :
    FailsOnFirst (Node.subtrees ns) f := by
  match ns with
  | [] => cases h
  | n :: rest =>
    rw [checkNodes] at h
    rw [Node.subtrees]
    rcases bind_eq_error.mp h with h | ⟨_, hn, h⟩
    · exact (checkNode_fault n h).append _
    · exact (checkNodes_fault rest h).prepend ((checkNode_eq_ok n).mp hn)

end

/-- A component is refused for its name, for a node, or for parts without names. -/
theorem validate_fault {c : Component} (h : c.validate = .error f) :
    (∃ why, f = .malformed why) ∧ ¬ c.MeetsValueLoop ∨ f = .missingOperation ∧ c.MeetsValueLoop := by
  rw [Component.validate] at h
  unfold Component.MeetsValueLoop
  cases hnamed : isNamed c.name with
  | false =>
    rw [hnamed] at h
    exact .inl ⟨⟨_, (Except.error.inj h).symm⟩, fun hmeets => Bool.false_ne_true hmeets.1⟩
  | true =>
    simp only [hnamed, Bool.not_true, Bool.false_eq_true, if_false] at h
    rcases bind_eq_error.mp h with h | ⟨_, hnodes, h⟩
    · obtain ⟨n, hn, hfails⟩ := checkNodes_fault c.children h
      have hfirst : ∀ m, Node.firstFlaw? c.nodes = some m → m = n := fun m hm =>
        Option.some.inj (hm.symm.trans hn)
      refine hfails.imp (fun h => ⟨h.1, ?_⟩) fun h => ⟨h.1, rfl, n, hn, h.2⟩
      rintro ⟨_, m, hm, hvalue⟩
      rw [hfirst m hm] at hvalue
      exact h.2 hvalue
    · have hnone : Node.firstFlaw? c.nodes = none :=
        firstFlaw?_eq_none.mpr ((checkNodes_eq_ok c.children).mp hnodes)
      refine .inl ⟨?_, ?_⟩
      · split at h
        next => cases h
        next => exact ⟨_, (Except.error.inj h).symm⟩
      · rintro ⟨_, m, hm, _⟩
        rw [hnone] at hm
        cases hm

end Walk

/-- The check accepts a component or refuses it with a malformation, unless the first node that is
    not well formed is a loop over a value that is no text: then it fails with a fault of its own. -/
theorem Component.validation_faults (c : Component) :
    ((c.validate = .ok () ∨ ∃ f, c.validate = .error f ∧ f.report.category = .malformed) ↔
      ¬ c.MeetsValueLoop) ∧
    (c.validate = .error .missingOperation ↔ c.MeetsValueLoop) := by
  cases hresult : c.validate with
  | ok result =>
    have hnone : ¬ c.MeetsValueLoop := by
      rintro ⟨_, n, hn, _⟩
      rw [firstFlaw?_eq_none.mpr (validate_eq_ok.mp hresult).2.1] at hn
      cases hn
    exact ⟨⟨fun _ => hnone, fun _ => .inl rfl⟩, ⟨nofun, fun h => absurd h hnone⟩⟩
  | error f =>
    rcases validate_fault hresult with ⟨⟨why, rfl⟩, hnone⟩ | ⟨rfl, hmeets⟩
    · exact ⟨⟨fun _ => hnone, fun _ => .inr ⟨_, rfl, rfl⟩⟩,
        ⟨nofun, fun h => absurd h hnone⟩⟩
    · refine ⟨⟨?_, fun h => absurd hmeets h⟩, ⟨fun _ => hmeets, fun _ => rfl⟩⟩
      rintro (h | ⟨f, hf, hcategory⟩)
      · cases h
      · cases hf
        cases hcategory

/-- A list of entries, one item for each of what a value gives. -/
def listOver (collection : Json) : Component where
  name := .str "List"
  children := [⟨.str "For", [], [("each", some ⟨collection, collection, .normal, .null⟩)],
    [⟨.str "li", [], [], [], .empty, none, []⟩], .empty, none, []⟩]
  state := []
  props := []
  propsTypeRef := .null
  defaultProps := []
  refs := []
  hooks := ⟨none, none, [], none⟩
  context := ⟨[], []⟩
  imports := []
  exports := []
  metadata := []
  types := []
  css := .null

/-- A number in the place of the collection is asked whether it is blank. -/
theorem number_collection_not_refused :
    (listOver (.int 3)).validate = .error .missingOperation ∧
      Fault.missingOperation.report.category ≠ .malformed :=
  ⟨rfl, by decide⟩

end ElementCompiler
