import ElementCompiler.Proofs.Markup.Rules

set_option autoImplicit false

/-!
Trees without internal keys. The rule of a node, the lookups of its rule and the attributes that it
emits do not depend on its internal properties and bindings.
-/

namespace ElementCompiler.Markup

open Attempt Text

/-- A normal binding under an internal key. -/
def isInternalBinding : Text × Option Binding → Bool
  | (key, some b) => isInternalKey key && b.mode = .normal
  | (_, none) => false

def dropInternal (bindings : Entries (Option Binding)) : Entries (Option Binding) :=
  bindings.filter fun e => !isInternalBinding e

theorem dropInternal_cons (e : Text × Option Binding) (bindings : Entries (Option Binding)) :
    dropInternal (e :: bindings) =
      if isInternalBinding e then dropInternal bindings else e :: dropInternal bindings := by
  cases h : isInternalBinding e <;> simp [dropInternal, h]

theorem exists_internal {e : Text × Option Binding} (h : isInternalBinding e = true) :
    ∃ key b, e = (key, some b) ∧ isInternalKey key = true ∧ b.mode = .normal := by
  obtain ⟨key, _ | b⟩ := e
  · cases h
  · simp only [isInternalBinding, Bool.and_eq_true, decide_eq_true_eq] at h
    exact ⟨key, b, rfl, h⟩

mutual

/-- The tree without the properties and the normal bindings under internal keys. -/
def withoutInternal : Node → Node
  | ⟨name, properties, bindings, children, scope, elseBranch, metadata⟩ =>
    ⟨name, properties.filter fun p => !isInternalKey p.1, dropInternal bindings,
      nodesWithoutInternal children, scope, branchWithoutInternal elseBranch, metadata⟩

def nodesWithoutInternal : List Node → List Node
  | [] => []
  | n :: rest => withoutInternal n :: nodesWithoutInternal rest

def branchWithoutInternal : Option Node → Option Node
  | none => none
  | some n => some (withoutInternal n)

end

section Fields

variable (n : Node)

theorem withoutInternal_name : (withoutInternal n).name = n.name := by
  cases n
  rw [withoutInternal]

theorem withoutInternal_properties :
    (withoutInternal n).properties = n.properties.filter fun p => !isInternalKey p.1 := by
  cases n
  rw [withoutInternal]

theorem withoutInternal_bindings : (withoutInternal n).bindings = dropInternal n.bindings := by
  cases n
  rw [withoutInternal]

theorem withoutInternal_children :
    (withoutInternal n).children = nodesWithoutInternal n.children := by
  cases n
  rw [withoutInternal]

theorem withoutInternal_scope : (withoutInternal n).scope = n.scope := by
  cases n
  rw [withoutInternal]

theorem withoutInternal_elseBranch :
    (withoutInternal n).elseBranch = branchWithoutInternal n.elseBranch := by
  cases n
  rw [withoutInternal]

variable {key : Text}

theorem withoutInternal_property (h : isInternalKey key = false) :
    Entries.get? (withoutInternal n).properties key = Entries.get? n.properties key := by
  rw [withoutInternal_properties]
  exact Entries.get?_filter_of_kept (fun _ => by simp [h]) n.properties

theorem isInternalBinding_eq_false (h : isInternalKey key = false) (b : Option Binding) :
    isInternalBinding (key, b) = false := by
  cases b <;> simp [isInternalBinding, h]

theorem get?_dropInternal (h : isInternalKey key = false) (bindings : Entries (Option Binding)) :
    Entries.get? (dropInternal bindings) key = Entries.get? bindings key :=
  Entries.get?_filter_of_kept (fun b => by simp [isInternalBinding_eq_false h b]) bindings

theorem withoutInternal_binding? (h : isInternalKey key = false) :
    (withoutInternal n).binding? key = n.binding? key := by
  rw [Node.binding?, Node.binding?, withoutInternal_bindings, get?_dropInternal h]

theorem withoutInternal_has (h : isInternalKey key = false) :
    Entries.has (withoutInternal n).bindings key = Entries.has n.bindings key := by
  rw [Entries.has, Entries.has, withoutInternal_bindings, get?_dropInternal h]

end Fields

section Rules

variable (n : Node)

theorem blockRule_withoutInternal : blockRule (withoutInternal n) = blockRule n :=
  blockRule_congr (withoutInternal_name n) (withoutInternal_property n rfl)
    (withoutInternal_binding? n rfl)

theorem canBeJoined_withoutInternal : canBeJoined (withoutInternal n) = canBeJoined n := by
  rw [canBeJoined, canBeJoined, blockRule_withoutInternal]

theorem all_canBeJoined_withoutInternal (ns : List Node) :
    (nodesWithoutInternal ns).all canBeJoined = ns.all canBeJoined := by
  induction ns with
  | nil => rfl
  | cons n ns ih =>
    rw [nodesWithoutInternal, List.all_cons, List.all_cons, canBeJoined_withoutInternal, ih]

theorem slotAttributes_withoutInternal : slotAttributes (withoutInternal n) = slotAttributes n := by
  unfold slotAttributes
  rw [withoutInternal_binding? n rfl, withoutInternal_property n rfl]

theorem loopCollection_withoutInternal : loopCollection (withoutInternal n) = loopCollection n := by
  rw [loopCollection, loopCollection, withoutInternal_binding? n rfl]

theorem loopHead_withoutInternal (collection : Text) :
    loopHead (withoutInternal n) collection = loopHead n collection := by
  rw [loopHead, loopHead, withoutInternal_scope]

theorem positiveBlock_withoutInternal (body : Block) :
    positiveBlock (withoutInternal n) body = positiveBlock n body := by
  rw [positiveBlock, positiveBlock, conditionText, conditionText, withoutInternal_binding? n rfl]

end Rules

section Attributes

variable (n : Node) (place : Place) (sources : List Text)

theorem propertyAttributes_withoutInternal :
    propertyAttributes (withoutInternal n) = propertyAttributes n := by
  rw [propertyAttributes, propertyAttributes, withoutInternal_properties, List.filter_filter]
  simp

theorem emitBinding_withoutInternal (key : Text) (b : Binding) :
    emitBinding (withoutInternal n) place sources key b = emitBinding n place sources key b := by
  unfold emitBinding emitEvent emitAttribute suppressesEvents eventName
  rw [withoutInternal_name, withoutInternal_property n rfl, withoutInternal_has n rfl]

/-- A binding that is taken away gives nothing. -/
theorem emitBinding_internal {key : Text} {b : Binding} (h : isInternalBinding (key, some b) = true) :
    emitBinding n place sources key b = .ok .none := by
  simp only [isInternalBinding, Bool.and_eq_true, decide_eq_true_eq] at h
  simp [emitBinding, BindingRule.of, h.1, h.2]

theorem spreadSources_dropInternal (bindings : Entries (Option Binding)) :
    spreadSources (dropInternal bindings) = spreadSources bindings := by
  induction bindings with
  | nil => rfl
  | cons e bindings ih =>
    rw [dropInternal_cons]
    split
    next hinternal =>
      obtain ⟨key, b, rfl, _, hmode⟩ := exists_internal hinternal
      rw [ih, spreadSources, if_neg (by simp [hmode])]
    next =>
      obtain ⟨key, _ | b⟩ := e
      · rfl
      · rw [spreadSources, spreadSources, ih]

theorem emitBindings_dropInternal (bindings : Entries (Option Binding)) :
    Emitted.concat <$> emitBindings (withoutInternal n) place sources (dropInternal bindings) =
      Emitted.concat <$> emitBindings n place sources bindings := by
  induction bindings with
  | nil => rfl
  | cons e bindings ih =>
    rw [dropInternal_cons]
    split
    next hinternal =>
      obtain ⟨key, b, rfl, _⟩ := exists_internal hinternal
      rw [ih, emitBindings, emitBinding_internal n place sources hinternal, ok_bind]
      cases emitBindings n place sources bindings <;> rfl
    next =>
      obtain ⟨key, _ | b⟩ := e
      · rfl
      rw [emitBindings, emitBindings, emitBinding_withoutInternal]
      cases emitBinding n place sources key b with
      | error fault => rfl
      | ok first =>
        have hcons : ∀ rest : Attempt (List Emitted),
            Emitted.concat <$> (do return first :: (← rest)) = first.append <$> Emitted.concat <$> rest :=
          fun rest => by cases rest <;> rfl
        rw [ok_bind, ok_bind, hcons, hcons, ih]

theorem emitAll_withoutInternal : emitAll (withoutInternal n) place = emitAll n place := by
  unfold emitAll
  rw [withoutInternal_bindings, spreadSources_dropInternal]
  exact bind_congr fun sources => emitBindings_dropInternal n place sources n.bindings

end Attributes

end ElementCompiler.Markup
