import ElementCompiler.Proofs.Markup.Rendering
import ElementCompiler.Proofs.Markup.TemplateReading
import ElementCompiler.Proofs.Snippet.Handlers

set_option autoImplicit false

/-!
Callables that no handler names. A handler calls what it only names, so the names of callable state
reach the markup through handlers alone, and a name that no binding has among its words reaches
it nowhere: what is rendered is the same with the name as without.
-/

namespace ElementCompiler.Markup

open Attempt Snippet Text

section Handlers

variable {name : Text}

/-- Code without the mark of an encoded quote has no quote to encode. -/
theorem encodeQuotes_of_notMem {s : Text} (h : CodePoint.char '&' ∉ encodeQuotes s) :
    encodeQuotes s = s := by
  have heq : ∀ t : Text, encodeQuotes t =
      t.flatMap fun c => if c = .char '"' then ofString "&quot;" else [c] :=
    replace_character (.char '"') "&quot;"
  rw [heq] at h ⊢
  refine (List.flatMap_congr fun c hc => if_neg ?_).trans (List.flatMap_singleton' s)
  rintro rfl
  refine h (List.mem_flatMap.mpr ⟨_, hc, ?_⟩)
  rw [if_pos rfl]
  decide

theorem isName_eventToken : IsName eventToken := by
  unfold IsName
  decide

/-- A handler that does not come down to the name, whatever its parameter is. -/
def CallsNo (name code : Text) : Prop :=
  ∀ argument, trim (unwrapBlock (renameArgument argument eventToken code)) ≠ name

theorem callsNo_of_notMem (hname : IsName name) (hevent : ∀ n, name ≠ repeated eventToken n)
    {code : Text} (h : name ∉ words code) : CallsNo name (encodeQuotes code) := by
  intro argument hcalled
  have hpadded := padded_of_renamed isName_eventToken hname hevent hcalled
  have hquotes := encodeQuotes_of_notMem (hpadded.notMem hname (by rfl) (by rfl))
  rw [hquotes] at hpadded
  rw [hpadded.words_eq hname] at h
  exact h (List.mem_singleton_self name)

end Handlers

/-- Two places that differ in nothing but whether the name is callable. -/
structure SamePlace (name : Text) (place place' : Place) : Prop where
  location : place'.location = place.location
  indexNames : place'.indexNames = place.indexNames
  callables : ∀ n, n ≠ name → (n ∈ place'.callableNames ↔ n ∈ place.callableNames)

/-- The bindings of the node are texts, and as handlers they do not come down to the name. -/
def NodeCallsNo (name : Text) (n : Node) : Prop :=
  ∀ b ∈ n.bindings, ∀ x, b.2 = some x → ∃ code, x.code = .str code ∧ CallsNo name code

section Rendering

variable {name : Text} {place place' : Place}

namespace SamePlace

theorem inside (h : SamePlace name place place') (location : Location) :
    SamePlace name (place.inside location) (place'.inside location) :=
  ⟨rfl, h.indexNames, h.callables⟩

theorem withIndex (h : SamePlace name place place') (index : Text) :
    SamePlace name (place.withIndex index) (place'.withIndex index) := by
  rw [Place.withIndex, Place.withIndex, h.indexNames]
  split
  next => exact h
  next => exact ⟨h.location, rfl, h.callables⟩

theorem loopPlace (h : SamePlace name place place') (scope : Scope) :
    SamePlace name (loopPlace scope place) (Markup.loopPlace scope place') := by
  rw [Markup.loopPlace, Markup.loopPlace]
  split
  next => exact (h.inside .loop).withIndex _
  next => exact h.inside .loop

end SamePlace

theorem handlerValue_eq (h : SamePlace name place place') {code : Text} (hcode : CallsNo name code)
    (argument : Text) : handlerValue argument (.str code) place'.callableNames =
      handlerValue argument (.str code) place.callableNames := by
  have hbare := h.callables _ (hcode argument)
  have hcontains : ∀ names : List Text, (names.contains
      (trim (unwrapBlock (renameArgument argument eventToken code))) = true) = _ :=
    fun names => propext List.contains_iff_mem
  rw [handlerValue, handlerValue]
  change Except.ok _ = Except.ok _
  simp only [hcontains, hbare]

theorem emitBinding_eq (h : SamePlace name place place') (n : Node) (sources : List Text) (key : Text)
    {b : Binding} (hb : ∃ code, b.code = .str code ∧ CallsNo name code) :
    emitBinding n place' sources key b = emitBinding n place sources key b := by
  rw [emitBinding, emitBinding]
  obtain ⟨code, hcode, hcalls⟩ := hb
  cases BindingRule.of key b.mode with
  | event => simp only [emitEvent, hcode, handlerValue_eq h hcalls]
  | plain => simp only [emitAttribute, h.indexNames]
  | _ => rfl

theorem emitBindings_eq (h : SamePlace name place place') (n : Node) (sources : List Text)
    {bindings : Entries (Option Binding)}
    (hbindings : ∀ b ∈ bindings, ∀ x, b.2 = some x →
      ∃ code, x.code = .str code ∧ CallsNo name code) :
    emitBindings n place' sources bindings = emitBindings n place sources bindings := by
  induction bindings with
  | nil => rfl
  | cons b bindings ih =>
    rw [List.forall_mem_cons] at hbindings
    obtain ⟨key, value⟩ := b
    cases value with
    | none => rfl
    | some x =>
      rw [emitBindings, emitBindings, emitBinding_eq h n sources key (hbindings.1 x rfl),
        ih hbindings.2]

theorem emitAll_eq (h : SamePlace name place place') {n : Node} (hn : NodeCallsNo name n) :
    emitAll n place' = emitAll n place := by
  rw [emitAll, emitAll]
  exact bind_congr fun sources => by rw [emitBindings_eq h n sources hn]

theorem renderNodes_congr {place place' : Place} {ns : List Node}
    (h : ∀ m ∈ ns, renderNode place' m = renderNode place m) : renderNodes place' ns = renderNodes place ns := by
  induction ns with
  | nil => rfl
  | cons n ns ih =>
    obtain ⟨hn, hns⟩ := List.forall_mem_cons.mp h
    rw [renderNodes, renderNodes, hn, ih hns]

theorem renderNode_eq {place place' : Place} (h : SamePlace name place place') (n : Node)
    (hn : ∀ m ∈ n.subtree, NodeCallsNo name m) : renderNode place' n = renderNode place n := by
  induction n using Node.induction_below generalizing place place' with
  | step n ih =>
    have hbelow : ∀ {inner inner'}, SamePlace name inner inner' → ∀ m : Node, m.IsBelow n →
        renderNode inner' m = renderNode inner m :=
      fun h m hm => ih m hm h fun l hl => hn l (hm.subtree_subset hl)
    have hchildren : ∀ {inner inner'}, SamePlace name inner inner' →
        renderChildren inner' "\n" n.children = renderChildren inner "\n" n.children := fun h => by
      rw [renderChildren, renderChildren, renderNodes_congr fun m hm => hbelow h m (.inl hm)]
    have helse : renderBranch (place'.inside .otherwise) n.elseBranch =
        renderBranch (place.inside .otherwise) n.elseBranch := by
      cases hm : n.elseBranch with
      | none => rfl
      | some m => rw [renderBranch, renderBranch, hbelow (h.inside .otherwise) m (.inr hm)]
    rw [renderNode_eq_renderBy, renderNode_eq_renderBy]
    refine bind_congr fun rule => ?_
    cases rule with
    | interpolation code =>
      have hcode : interpolation code place' = interpolation code place := by
        rw [interpolation, interpolation, h.indexNames]
      rw [renderBy, renderBy, hcode]
    | loop => rw [renderBy, renderBy, hchildren (h.loopPlace n.scope)]
    | conditional => rw [renderBy, renderBy, hchildren (h.inside .conditional), helse]
    | element =>
      rw [renderBy, renderBy, hchildren (h.inside .children), emitAll_eq h (hn n n.mem_subtree_self)]
    | fragment => rw [renderBy, renderBy, hchildren (h.inside .fragment)]
    | slot => rw [renderBy, renderBy, hchildren (h.inside .slot)]
    | childrenPlaceholder | literalText => rfl

theorem renderNodes_eq {place place' : Place} (h : SamePlace name place place') (ns : List Node)
    (hns : ∀ m ∈ Node.subtrees ns, NodeCallsNo name m) :
    renderNodes place' ns = renderNodes place ns :=
  renderNodes_congr fun n hn => renderNode_eq h n fun m hm => hns m (Node.mem_subtrees.mpr ⟨n, hn, hm⟩)

end Rendering

end ElementCompiler.Markup
