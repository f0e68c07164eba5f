import ElementCompiler.Component.Validation
import ElementCompiler.Proofs.Component.Texts

set_option autoImplicit false

/-!
What makes a component well formed, said of each node on its own, and the check that accepts exactly
the well-formed components. Nodes are told apart by the steps that lead to them, and the walk over a
component meets the node at each of these places once.
-/

namespace ElementCompiler

open Attempt Text

namespace Node

/-- What stands at the key `else` of the metadata: nothing, a value, or the else branch. -/
def elseEntry? (n : Node) : Option (Json ⊕ Node) :=
  match n.elseBranch with
  | some branch => some (.inr branch)
  | none => (Entries.get? n.metadata (.text elseKey)).map .inl

/-- One step down from a node. -/
inductive Step where
  | child (index : Nat)
  | otherwise
  deriving DecidableEq

/-- The node one step below. An else branch is below a node of any kind. -/
def below? (n : Node) : Step → Option Node
  | .child index => n.children[index]?
  | .otherwise =>
    match n.elseEntry? with
    | some (.inr branch) => some branch
    | _ => none

def at? (n : Node) : List Step → Option Node
  | [] => some n
  | step :: rest =>
    match n.below? step with
    | some m => m.at? rest
    | none => none

/-- What a node needs, the nodes below it apart. -/
structure WellFormed (n : Node) : Prop where
  name : ∃ s, n.name = .str s ∧ isBlankText s = false
  loop : n.isLoop = true → n.Iterates
  bindings : ∀ b ∈ n.bindings, ∃ x, b.2 = some x ∧ x.code.IsText
  literalText : ∀ j, Entries.get? n.properties textKey = some j → j.IsText
  otherwise : ∀ j, n.elseEntry? = some (.inl j) → j = .null

end Node

namespace Component

/-- The node that steps from the component lead to; the first of them is to one of its children. -/
def at? (c : Component) : List Node.Step → Option Node
  | .child index :: rest => (c.children[index]?).bind fun n => n.at? rest
  | _ => none

/-- Names and paths that are texts are given when they are not empty. -/
structure WellFormed (c : Component) : Prop where
  name : ∃ s, c.name = .str s ∧ isBlankText s = false
  nodes : ∀ place n, c.at? place = some n → n.WellFormed
  reads : ∀ r ∈ c.context.reads, r.2.name.isGiven = true
  writes : ∀ w ∈ c.context.writes, w.name.isGiven = true
  imports : ∀ d ∈ c.imports, d.path.isGiven = true

end Component

section Check

theorem isNamed_iff {j : Json} : isNamed j = true ↔ ∃ s, j = .str s ∧ isBlankText s = false := by
  cases j with
  | str s => simp [isNamed]
  | _ => simp [isNamed]

theorem seq_eq_ok {x : Attempt Unit} {f : Unit → Attempt Unit} :
    (x >>= f) = .ok () ↔ x = .ok () ∧ f () = .ok () := by
  rw [bind_eq_ok]
  exact ⟨fun ⟨_, hx, hf⟩ => ⟨hx, hf⟩, fun ⟨hx, hf⟩ => ⟨(), hx, hf⟩⟩

theorem checkLoop_eq_ok {n : Node} {place : Text} :
    checkLoop n place = .ok () ↔ (n.isLoop = true → n.Iterates) := by
  rw [checkLoop]
  split
  next hloop =>
    rw [forall_prop_of_true hloop, Node.Iterates]
    cases n.binding? "each" with
    | none => simp [malformed]
    | some b =>
      constructor
      · intro h
        obtain ⟨code, hcode, h⟩ := bind_eq_ok.mp h
        split at h
        next => cases h
        next hblank => exact ⟨b, code, rfl, textOr_eq_ok hcode, by simpa using hblank⟩
      · rintro ⟨x, code, hx, hcode, hblank⟩
        obtain rfl := Option.some.inj hx
        dsimp only
        rw [hcode, Json.textOr_str, ok_bind, if_neg (by simp [hblank])]
        rfl
  next hloop => exact ⟨fun _ h => absurd h hloop, fun _ => rfl⟩

theorem checkBindings_eq_ok {place : Text} {bs : Entries (Option Binding)} :
    checkBindings place bs = .ok () ↔ ∀ b ∈ bs, ∃ x, b.2 = some x ∧ x.code.IsText := by
  induction bs with
  | nil => exact ⟨fun _ _ h => absurd h List.not_mem_nil, fun _ => rfl⟩
  | cons b bs ih =>
    obtain ⟨key, b⟩ := b
    rw [checkBindings, List.forall_mem_cons, ← ih]
    split
    next hnone =>
      refine ⟨fun h => ?_, fun h => ?_⟩
      · cases h
      · obtain ⟨⟨x, hx, s, hs⟩, -⟩ := h
        dsimp only at hx
        rw [hx, Option.bind_some, hs] at hnone
        cases hnone
    next s hs =>
      obtain ⟨x, hx, hcode⟩ := Option.bind_eq_some_iff.mp hs
      refine ⟨fun h => ⟨⟨x, hx, s, ?_⟩, h⟩, fun h => h.2⟩
      cases hj : x.code with
      | str t => rw [hj] at hcode; exact congrArg _ (Option.some.inj hcode)
      | _ => rw [hj] at hcode; cases hcode

theorem otherwise_null_iff {n : Node} : (∀ j, n.elseEntry? = some (.inl j) → j = .null) ↔
    ∀ j, n.elseBranch = none → Entries.get? n.metadata (.text elseKey) = some j → j.isNull = true := by
  have hnull : ∀ j : Json, j.isNull = true ↔ j = .null := fun j => by cases j <;> simp [Json.isNull]
  simp only [hnull, Node.elseEntry?]
  cases n.elseBranch with
  | none => simp
  | some branch => simp

/-- The check of a single node asks for just what the node needs. -/
theorem checkOne_eq_ok {path : Text} {n : Node} : checkOne path n = .ok () ↔ n.WellFormed := by
  have hwell : n.WellFormed ↔ isNamed n.name = true ∧ (n.isLoop = true → n.Iterates) ∧
      (∀ b ∈ n.bindings, ∃ x, b.2 = some x ∧ x.code.IsText) ∧
      (∀ j, Entries.get? n.properties textKey = some j → j.IsText) ∧
      ∀ j, n.elseBranch = none → Entries.get? n.metadata (.text elseKey) = some j →
        j.isNull = true := by
    rw [← otherwise_null_iff, isNamed_iff]
    exact ⟨fun h => ⟨h.name, h.loop, h.bindings, h.literalText, h.otherwise⟩,
      fun h => ⟨h.1, h.2.1, h.2.2.1, h.2.2.2.1, h.2.2.2.2⟩⟩
  rw [hwell, checkOne]
  cases isNamed n.name with
  | false =>
    refine ⟨fun h => ?_, fun h => ?_⟩
    · cases h
    · cases h.1
  | true =>
    simp only [Bool.not_true, Bool.false_eq_true, if_false, true_and]
    rw [seq_eq_ok, seq_eq_ok, checkLoop_eq_ok, checkBindings_eq_ok]
    refine and_congr_right fun _ => and_congr_right fun _ => ?_
    generalize n.elseBranch = branch
    generalize Entries.get? n.metadata (.text elseKey) = entry
    generalize Entries.get? n.properties textKey = literal
    cases branch <;> cases entry
    all_goals
      cases literal with
      | none => simp [malformed, pure, Except.pure]
      | some value =>
        cases value with
        | str s => simp [Json.IsText, malformed, pure, Except.pure]
        | _ =>
          refine ⟨by rintro ⟨⟩, ?_⟩
          rintro ⟨h, -⟩
          obtain ⟨s, ⟨⟩⟩ := h _ rfl

mutual

theorem checkNode_eq_ok {path : Text} (n : Node) :
    checkNode path n = .ok () ↔ ∀ m ∈ n.subtree, m.WellFormed := by
  match n with
  | ⟨name, properties, bindings, children, scope, elseBranch, metadata⟩ =>
    rw [checkNode, Node.subtree, List.forall_mem_cons, List.forall_mem_append, seq_eq_ok, seq_eq_ok,
      checkOne_eq_ok, checkBranch_eq_ok elseBranch, checkNodes_eq_ok children]

theorem checkBranch_eq_ok {path : Text} (branch : Option Node) :
    checkBranch path branch = .ok () ↔ ∀ m ∈ Node.branchNodes branch, m.WellFormed := by
  match branch with
  | none => exact ⟨fun _ m hm => absurd hm List.not_mem_nil, fun _ => rfl⟩
  | some n => exact checkNode_eq_ok n

theorem checkNodes_eq_ok {path : Text} (ns : List Node) :
    checkNodes path ns = .ok () ↔ ∀ m ∈ Node.subtrees ns, m.WellFormed := by
  match ns with
  | [] => exact ⟨fun _ m hm => absurd hm List.not_mem_nil, fun _ => rfl⟩
  | n :: rest =>
    rw [checkNodes, Node.subtrees, List.forall_mem_append, seq_eq_ok, checkNode_eq_ok n,
      checkNodes_eq_ok rest]

end

theorem filterMap_zipIdx_eq_nil {α : Type} (given : α → Bool) (part : Nat → Text) {as : List α} :
    (as.zipIdx.filterMap fun a => if given a.1 then none else some (part a.2)) = [] ↔
      ∀ a ∈ as, given a = true := by
  rw [List.filterMap_eq_nil_iff]
  constructor
  · intro h a ha
    obtain ⟨i, hi, rfl⟩ := List.getElem_of_mem ha
    have hplace := h (as[i], i) (List.mem_zipIdx_iff_getElem?.mpr (List.getElem?_eq_getElem hi))
    simpa using hplace
  · intro h a ha
    rw [if_pos (h _ (List.fst_mem_of_mem_zipIdx ha))]

/-- A message has nothing to list when all names and paths are given. -/
theorem unnamedParts_eq_nil {c : Component} : c.unnamedParts = [] ↔
    (∀ r ∈ c.context.reads, r.2.name.isGiven = true) ∧
      (∀ w ∈ c.context.writes, w.name.isGiven = true) ∧ ∀ d ∈ c.imports, d.path.isGiven = true := by
  simp only [Component.unnamedParts, List.append_eq_nil_iff, and_assoc]
  refine and_congr ?_ (and_congr
    (filterMap_zipIdx_eq_nil (fun w : ContextWrite => w.name.isGiven)
      fun i => Text.ofString "context write #" ++ Text.ofString (toString i))
    (filterMap_zipIdx_eq_nil (fun d : DeclaredImport => d.path.isGiven)
      fun i => Text.ofString "import #" ++ Text.ofString (toString i)))
  simp [List.filterMap_eq_nil_iff]

theorem validate_eq_ok {c : Component} : c.validate = .ok () ↔
    isNamed c.name = true ∧ (∀ m ∈ c.nodes, m.WellFormed) ∧ c.unnamedParts = [] := by
  rw [Component.validate, Component.nodes]
  cases isNamed c.name with
  | false =>
    refine ⟨fun h => ?_, fun h => ?_⟩
    · cases h
    · cases h.1
  | true =>
    simp only [Bool.not_true, Bool.false_eq_true, if_false, true_and]
    rw [seq_eq_ok, checkNodes_eq_ok]
    refine and_congr_right fun _ => ?_
    cases c.unnamedParts with
    | nil => exact ⟨fun _ => rfl, fun _ => rfl⟩
    | cons part parts => exact ⟨by rintro ⟨⟩, by rintro ⟨⟩⟩

theorem iterates_of_checkNode {path : Text} {n : Node} (h : checkNode path n = .ok ()) :
    ∀ m ∈ n.subtree, m.isLoop = true → m.Iterates :=
  fun m hm => ((checkNode_eq_ok n).mp h m hm).loop

/-- What a valid component has by itself: a name that is text, and the collections of its loops. -/
theorem loopsIterate_of_validate {c : Component} (h : c.validate = .ok ()) :
    c.name.IsText ∧ c.LoopsIterate := by
  obtain ⟨hname, hnodes, _⟩ := validate_eq_ok.mp h
  obtain ⟨s, hs, _⟩ := isNamed_iff.mp hname
  exact ⟨⟨s, hs⟩, fun m hm => (hnodes m hm).loop⟩

end Check

section Places

open Node

mutual

/-- The places of the nodes of a subtree, in the order in which they are walked over. -/
def Node.places : Node → List (List Step)
  | ⟨_, _, _, children, _, elseBranch, _⟩ =>
    [] :: ((branchPlaces elseBranch).map (Step.otherwise :: ·) ++ childPlaces 0 children)

def branchPlaces : Option Node → List (List Step)
  | none => []
  | some n => n.places

/-- The places of siblings, of which the first has the given number. -/
def childPlaces : Nat → List Node → List (List Step)
  | _, [] => []
  | index, n :: rest => n.places.map (Step.child index :: ·) ++ childPlaces (index + 1) rest

end

def Component.places (c : Component) : List (List Step) := childPlaces 0 c.children

theorem below?_otherwise (n : Node) : n.below? .otherwise = n.elseBranch := by
  obtain ⟨name, properties, bindings, children, scope, elseBranch, metadata⟩ := n
  cases elseBranch with
  | some branch => rfl
  | none =>
    rw [below?, elseEntry?]
    cases Entries.get? metadata (.text elseKey) <;> rfl

theorem at?_cons (n : Node) (step : Step) (rest : List Step) :
    n.at? (step :: rest) = (n.below? step).bind fun m => m.at? rest := by
  rw [Node.at?]
  cases n.below? step <;> rfl

mutual

theorem map_at?_places (n : Node) : n.places.map n.at? = n.subtree.map some := by
  match n with
  | ⟨name, properties, bindings, children, scope, elseBranch, metadata⟩ =>
    rw [places, subtree, List.map_cons, List.map_cons, List.map_append, List.map_append, List.map_map]
    refine congrArg₂ List.cons rfl (congrArg₂ (· ++ ·) ?_ ?_)
    · rw [← map_branchPlaces elseBranch]
      refine List.map_congr_left fun place _ => ?_
      rw [Function.comp_apply, at?_cons, below?_otherwise]
    · exact map_childPlaces [] children _ fun _ _ => at?_cons _ _ _

theorem map_branchPlaces (branch : Option Node) :
    (branchPlaces branch).map (fun place => branch.bind fun n => n.at? place) =
      (branchNodes branch).map some := by
  match branch with
  | none => rfl
  | some n => exact map_at?_places n

/-- Places of siblings that come after others lead to the nodes among them. -/
theorem map_childPlaces (before rest : List Node) (reach : List Step → Option Node)
    (hreach : ∀ index place, reach (.child index :: place) =
      ((before ++ rest)[index]?).bind fun n => n.at? place) :
    (childPlaces before.length rest).map reach = (subtrees rest).map some := by
  match rest with
  | [] => rfl
  | n :: rest =>
    have hplaces : n.places.map (fun place => reach (.child before.length :: place)) =
        n.subtree.map some := by
      rw [← map_at?_places n]
      refine List.map_congr_left fun place _ => ?_
      rw [hreach, List.getElem?_append_right (Nat.le_refl _), Nat.sub_self]
      rfl
    have hrest := map_childPlaces (before ++ [n]) rest reach fun index place => by
      rw [hreach, List.append_assoc, List.singleton_append]
    rw [List.length_append, List.length_singleton] at hrest
    rw [childPlaces, subtrees, List.map_append, List.map_append, hrest, List.map_map]
    exact congrArg (· ++ _) hplaces

end

theorem mem_childPlaces {index : Nat} {ns : List Node} {place : List Step} :
    place ∈ childPlaces index ns ↔
      ∃ i n p, ns[i]? = some n ∧ p ∈ n.places ∧ place = .child (index + i) :: p := by
  induction ns generalizing index with
  | nil => simp [childPlaces]
  | cons n rest ih =>
    rw [childPlaces, List.mem_append, List.mem_map, ih]
    constructor
    · rintro (⟨p, hp, rfl⟩ | ⟨i, m, p, hm, hp, rfl⟩)
      · exact ⟨0, n, p, rfl, hp, rfl⟩
      · exact ⟨i + 1, m, p, hm, hp, by rw [Nat.add_assoc, Nat.add_comm 1]⟩
    · rintro ⟨_ | i, m, p, hm, hp, rfl⟩
      · obtain rfl := Option.some.inj hm
        exact .inl ⟨p, hp, rfl⟩
      · exact .inr ⟨i, m, p, hm, hp, by rw [Nat.add_assoc, Nat.add_comm 1]⟩

theorem nodup_map_cons {step : Step} {places : List (List Step)} (h : places.Nodup) :
    (places.map (step :: ·)).Nodup :=
  List.Pairwise.map _ (fun _ _ hne heq => hne (List.cons.inj heq).2) h

mutual

theorem nodup_places (n : Node) : n.places.Nodup := by
  match n with
  | ⟨name, properties, bindings, children, scope, elseBranch, metadata⟩ =>
    rw [places, List.nodup_cons, List.nodup_append, List.mem_append, List.mem_map]
    refine ⟨?_, nodup_map_cons (nodup_branchPlaces elseBranch),
      nodup_childPlaces 0 children, ?_⟩
    · rintro (⟨p, _, h⟩ | h)
      · cases h
      · obtain ⟨i, m, p, _, _, h⟩ := mem_childPlaces.mp h
        cases h
    · intro place hbranch _ hchild heq
      obtain ⟨p, _, rfl⟩ := List.mem_map.mp hbranch
      obtain ⟨i, m, q, _, _, rfl⟩ := mem_childPlaces.mp hchild
      cases heq

theorem nodup_branchPlaces (branch : Option Node) : (branchPlaces branch).Nodup := by
  match branch with
  | none => exact List.nodup_nil
  | some n => exact nodup_places n

theorem nodup_childPlaces (index : Nat) (ns : List Node) : (childPlaces index ns).Nodup := by
  match ns with
  | [] => exact List.nodup_nil
  | n :: rest =>
    rw [childPlaces, List.nodup_append]
    refine ⟨nodup_map_cons (nodup_places n),
      nodup_childPlaces (index + 1) rest, ?_⟩
    -- a later sibling has a higher number
    intro place hfirst _ hlater heq
    obtain ⟨p, _, rfl⟩ := List.mem_map.mp hfirst
    obtain ⟨i, m, q, _, _, rfl⟩ := mem_childPlaces.mp hlater
    have hindex := Step.child.inj (List.cons.inj heq).1
    omega

end

/-- The places of a subtree are the steps that lead somewhere. -/
theorem mem_places_iff {n : Node} {place : List Step} :
    place ∈ n.places ↔ (n.at? place).isSome = true := by
  induction place generalizing n with
  | nil =>
    obtain ⟨name, properties, bindings, children, scope, elseBranch, metadata⟩ := n
    exact ⟨fun _ => rfl, fun _ => List.mem_cons_self⟩
  | cons step rest ih =>
    rw [at?_cons]
    obtain ⟨name, properties, bindings, children, scope, elseBranch, metadata⟩ := n
    rw [places, List.mem_cons, List.mem_append, mem_childPlaces, List.mem_map]
    cases step with
    | otherwise =>
      rw [below?_otherwise]
      cases elseBranch with
      | none => simp [branchPlaces]
      | some branch => simp [branchPlaces, ih]
    | child index =>
      rw [below?]
      cases hn : children[index]? with
      | none => simp [hn]
      | some n => simp [hn, ih]

end Places

namespace Component

theorem at?_child (c : Component) (index : Nat) (place : List Node.Step) :
    c.at? (.child index :: place) = (c.children[index]?).bind fun n => n.at? place := rfl

theorem map_at?_places (c : Component) : c.places.map c.at? = c.nodes.map some :=
  map_childPlaces [] c.children _ c.at?_child

theorem mem_places_iff {c : Component} {place : List Node.Step} :
    place ∈ c.places ↔ (c.at? place).isSome = true := by
  rw [places, mem_childPlaces]
  cases place with
  | nil => simp [Component.at?]
  | cons step rest =>
    cases step with
    | otherwise => simp [Component.at?]
    | child index =>
      rw [at?_child]
      cases hn : c.children[index]? with
      | none => simp [hn]
      | some n => simp [hn, ElementCompiler.mem_places_iff]

/-- A node that steps lead to is one of those walked over, and the other way around. -/
theorem exists_at?_iff {c : Component} {n : Node} : (∃ place, c.at? place = some n) ↔ n ∈ c.nodes := by
  have hmem : n ∈ c.nodes ↔ some n ∈ c.nodes.map some := by simp
  rw [hmem, ← c.map_at?_places, List.mem_map]
  refine exists_congr fun place => (and_iff_right_of_imp fun h => ?_).symm
  rw [mem_places_iff, h]
  rfl

theorem wellFormed_iff {c : Component} : c.WellFormed ↔
    isNamed c.name = true ∧ (∀ m ∈ c.nodes, m.WellFormed) ∧ c.unnamedParts = [] := by
  rw [isNamed_iff, unnamedParts_eq_nil]
  constructor
  · intro h
    refine ⟨h.name, fun m hm => ?_, h.reads, h.writes, h.imports⟩
    obtain ⟨place, hplace⟩ := exists_at?_iff.mpr hm
    exact h.nodes place m hplace
  · rintro ⟨hname, hnodes, hreads, hwrites, himports⟩
    exact ⟨hname, fun place n h => hnodes n (exists_at?_iff.mp ⟨place, h⟩), hreads, hwrites, himports⟩

/-- The check accepts the well-formed components and no others. The walk over the nodes goes once
    to each place that steps lead to, and to nothing else. -/
theorem validate_iff_wellFormed (c : Component) :
    (c.validate = .ok () ↔ c.WellFormed) ∧ c.places.Nodup ∧
      (∀ place, place ∈ c.places ↔ (c.at? place).isSome = true) ∧
      c.nodes.map some = c.places.map c.at? :=
  ⟨validate_eq_ok.trans wellFormed_iff.symm, nodup_childPlaces 0 c.children,
    fun _ => mem_places_iff, c.map_at?_places.symm⟩

end Component

end ElementCompiler
