import ElementCompiler.Proofs.Markup.InternalKeys
import ElementCompiler.Proofs.Markup.SlotCode
import ElementCompiler.Proofs.Markup.Standing

set_option autoImplicit false

/-!
Internal keys in rendered markup. Without its internal properties and bindings a tree is rendered the
same, but for slots: a slot shows the code of each of its bindings, and so the code of an internal one.
The two renderings are compared node by node.
-/

namespace ElementCompiler.Markup

open Attempt Text

/-- No binding that is taken away has code. -/
def HidesInternal (bindings : Entries (Option Binding)) : Prop :=
  ∀ e ∈ bindings, isInternalBinding e = true → ∀ b, e.2 = some b → b.code.isGiven = false

/-- The slots that are rendered with the node have no code under an internal key. -/
def SlotsHideInternal (place : Place) (n : Node) : Prop :=
  ∀ place' m, StandsIn place n place' m → blockRule m = .ok .slot → HidesInternal m.bindings

section Slots

variable {bindings : Entries (Option Binding)} {place : Place} {n : Node}

theorem slotsHideInternal_iff : SlotsHideInternal place n ↔
    (blockRule n = .ok .slot → HidesInternal n.bindings) ∧
      ∀ inner m, Renders place n inner m → SlotsHideInternal inner m := by
  constructor
  · intro h
    exact ⟨h place n (.self place n), fun inner m hfirst place' k hk => h place' k (.step hfirst hk)⟩
  · rintro ⟨hself, hbelow⟩ place' m hm
    cases hm with
    | self => exact hself
    | step hfirst hrest => exact hbelow _ _ hfirst _ _ hrest

theorem hidesInternal_cons {e : Text × Option Binding} : HidesInternal (e :: bindings) ↔
    (isInternalBinding e = true → ∀ b, e.2 = some b → b.code.isGiven = false) ∧
      HidesInternal bindings := List.forall_mem_cons

theorem ownCode_internal {e : Text × Option Binding} (h : isInternalBinding e = true) :
    ownCode e = [] ↔ ∀ b, e.2 = some b → b.code.isGiven = false := by
  obtain ⟨key, b, rfl, hkey, _⟩ := exists_internal h
  have hname : (key == "name") = false := by
    rw [beq_eq_false_iff_ne]
    rintro rfl
    exact absurd hkey (by decide)
  simp [ownCode, hname]

theorem shown_of_internal {e : Text × Option Binding} (h : isInternalBinding e = true) :
    (e.1 == "name") = true ∨ e.2.isSome := by
  obtain ⟨key, b, rfl, _⟩ := exists_internal h
  exact .inr rfl

theorem nestedCodes_of_hides (h : HidesInternal bindings) :
    nestedCodes (dropInternal bindings) = nestedCodes bindings := by
  induction bindings with
  | nil => rfl
  | cons e bindings ih =>
    obtain ⟨hfirst, hrest⟩ := hidesInternal_cons.mp h
    rw [dropInternal_cons]
    split
    next hinternal =>
      rw [ih hrest, nestedCodes_cons (shown_of_internal hinternal), (ownCode_internal hinternal).mpr (hfirst hinternal)]
      exact (id_map _).symm
    next =>
      obtain ⟨key, b⟩ := e
      simp only [nestedCodes, ih hrest]

/-- Without internal bindings a slot has fewer codes to show, unless those had none. -/
theorem nestedCodes_shrink {codes : List Json} (h : nestedCodes bindings = .ok codes) :
    ∃ codes', nestedCodes (dropInternal bindings) = .ok codes' ∧ codes'.Sublist codes ∧
      (codes.length ≤ codes'.length → HidesInternal bindings) := by
  induction bindings generalizing codes with
  | nil =>
    obtain rfl := Except.ok.inj h
    exact ⟨[], rfl, .slnil, fun _ => List.forall_mem_nil _⟩
  | cons e bindings ih =>
    obtain ⟨hshown, rest, hrest, rfl⟩ := exists_nestedCodes_cons h
    obtain ⟨codes', hcodes', hsub, hhides⟩ := ih hrest
    have hlength := hsub.length_le
    rw [dropInternal_cons]
    split
    next hinternal =>
      refine ⟨codes', hcodes', hsub.trans (List.sublist_append_right _ _), fun hle => ?_⟩
      rw [List.length_append] at hle
      -- A code of its own would be missed.
      have hown : ownCode e = [] := List.eq_nil_of_length_eq_zero (by omega)
      exact hidesInternal_cons.mpr ⟨fun _ => (ownCode_internal hinternal).mp hown, hhides (by omega)⟩
    next hkept =>
      refine ⟨ownCode e ++ codes', ?_, hsub.append_left _, fun hle => ?_⟩
      · rw [nestedCodes_cons hshown, hcodes']
        rfl
      · simp only [List.length_append] at hle
        exact hidesInternal_cons.mpr ⟨fun hinternal => absurd hinternal hkept, hhides (by omega)⟩

end Slots

/-- The block has the spreads of the other one and no more text, and as much only when nothing was
    there to hide. -/
structure Block.Shrinks (hidden : Prop) (b' b : Block) : Prop where
  spreads : b'.spreads = b.spreads
  shorter : b'.text.length ≤ b.text.length
  hides : b.text.length ≤ b'.text.length → hidden

/-- The attempt that goes without what is hidden, beside the one with it. -/
structure Compares (hidden : Prop) (x' x : Attempt Block) : Prop where
  same : hidden → x' = x
  shrinks : ∀ b, x = .ok b → ∃ b', x' = .ok b' ∧ b'.Shrinks hidden b

section Comparison

variable {hidden other : Prop} {x' x : Attempt Block} {place inner : Place} {n : Node}

theorem Block.Shrinks.refl (h : hidden) (b : Block) : b.Shrinks hidden b := ⟨rfl, le_refl _, fun _ => h⟩

theorem Compares.refl (h : hidden) (x : Attempt Block) : Compares hidden x x :=
  ⟨fun _ => rfl, fun b hb => ⟨b, hb, .refl h b⟩⟩

theorem Compares.congr (h : Compares hidden x' x) (hiff : hidden ↔ other) : Compares other x' x := by
  rwa [← propext hiff]

/-- A step that both take before. -/
theorem Compares.after {α : Type} {f' f : α → Attempt Block} (step : Attempt α)
    (h : ∀ a, step = .ok a → Compares hidden (f' a) (f a)) : Compares hidden (step >>= f') (step >>= f) := by
  cases step with
  | error fault => exact ⟨fun _ => rfl, fun b hb => nomatch hb⟩
  | ok a => exact h a rfl

/-- What both write around the block. -/
theorem Compares.around {f : Block → Block} (h : Compares hidden x' x)
    (hf : ∀ b' b, b'.Shrinks hidden b → (f b').Shrinks hidden (f b)) :
    Compares hidden (x' >>= fun b => .ok (f b)) (x >>= fun b => .ok (f b)) := by
  refine ⟨fun hidden => by rw [h.same hidden], fun c hc => ?_⟩
  obtain ⟨b, hb, hc⟩ := bind_eq_ok.mp hc
  obtain rfl := Except.ok.inj hc
  obtain ⟨b', hb', hshrinks⟩ := h.shrinks b hb
  exact ⟨f b', by rw [hb', ok_bind], hf b' b hshrinks⟩

/-- The same text written around both. -/
theorem Block.Shrinks.within {b' b c' c : Block} (h : b'.Shrinks hidden b) (front back : Text)
    (hspreads : c'.spreads = c.spreads) (hc' : c'.text = front ++ (b'.text ++ back))
    (hc : c.text = front ++ (b.text ++ back)) : c'.Shrinks hidden c := by
  have hshorter := h.shorter
  refine ⟨hspreads, ?_, fun hle => h.hides ?_⟩
  · simp only [hc', hc, List.length_append]
    omega
  · simp only [hc', hc, List.length_append] at hle
    omega

theorem Block.Shrinks.element {b' b : Block} (h : b'.Shrinks hidden b) (tag : Text)
    (attributes : List Attribute) :
    Block.Shrinks hidden ⟨element tag attributes b'.pieces, b'.spreads⟩
      ⟨element tag attributes b.pieces, b.spreads⟩ :=
  h.within _ _ h.spreads (text_element tag attributes _) (text_element tag attributes _)

theorem text_elementBlock (selector : Text) (attributes : List Attribute) (emitted : Emitted) (b : Block) :
    (elementBlock selector attributes emitted b).text =
      (Piece.opening selector (attributes ++ emitted.attributes)).text ++
        piecesText (emitted.deferredSlots.map Piece.raw) ++
          (b.text ++ piecesText [.raw "\n", .closing selector]) := by
  simp only [Block.text, elementBlock, piecesText, piecesText_append, List.append_assoc]

theorem Block.Shrinks.elementBlock {b' b : Block} (h : b'.Shrinks hidden b) (selector : Text)
    (attributes : List Attribute) (emitted : Emitted) :
    (elementBlock selector attributes emitted b').Shrinks hidden
      (elementBlock selector attributes emitted b) :=
  h.within _ _ (by rw [Markup.elementBlock, Markup.elementBlock, h.spreads])
    (text_elementBlock selector attributes emitted b') (text_elementBlock selector attributes emitted b)

theorem Block.Shrinks.withBranch {positive' positive k' k : Block} (h : positive'.Shrinks hidden positive)
    (hk : k'.Shrinks other k) :
    (withBranch positive' (some k')).Shrinks (hidden ∧ other) (withBranch positive (some k)) := by
  obtain ⟨hspreads, hshorter, hhides⟩ := h
  obtain ⟨hmore, hle, hother⟩ := hk
  simp only [Block.text] at hshorter hhides hle hother
  refine ⟨by rw [Markup.withBranch, Markup.withBranch, hspreads, hmore], ?_, fun h => ?_⟩
  · simp only [Block.text, Markup.withBranch, text_element, piecesText, piecesText_append, List.length_append]
    omega
  · simp only [Block.text, Markup.withBranch, text_element, piecesText, piecesText_append,
      List.length_append] at h
    exact ⟨hhides (by omega), hother (by omega)⟩

/-- Two blocks that both put together. -/
theorem Compares.both {y' y : Attempt Block} {f : Block → Block → Block} (hx : Compares hidden x' x)
    (hy : Compares other y' y)
    (hf : ∀ b' b k' k, b'.Shrinks hidden b → k'.Shrinks other k →
      (f b' k').Shrinks (hidden ∧ other) (f b k)) :
    Compares (hidden ∧ other) (x' >>= fun b => y' >>= fun k => .ok (f b k))
      (x >>= fun b => y >>= fun k => .ok (f b k)) := by
  refine ⟨fun ⟨hidden, other⟩ => by rw [hx.same hidden, hy.same other], fun c hc => ?_⟩
  obtain ⟨b, hb, hc⟩ := bind_eq_ok.mp hc
  obtain ⟨k, hk, hc⟩ := bind_eq_ok.mp hc
  obtain rfl := Except.ok.inj hc
  obtain ⟨b', hb', hshrinks⟩ := hx.shrinks b hb
  obtain ⟨k', hk', hshrinks'⟩ := hy.shrinks k hk
  exact ⟨f b' k', by rw [hb', ok_bind, hk', ok_bind], hf b' b k' k hshrinks hshrinks'⟩

/-- Each of the nodes without its internal entries, beside the node. -/
def ComparesEach (place : Place) (ns : List Node) : Prop :=
  ∀ m ∈ ns, Compares (SlotsHideInternal place m) (renderNode place (withoutInternal m)) (renderNode place m)

theorem renderNodes_same {ns : List Node} (hns : ComparesEach place ns)
    (h : ∀ m ∈ ns, SlotsHideInternal place m) :
    renderNodes place (nodesWithoutInternal ns) = renderNodes place ns := by
  induction ns with
  | nil => rfl
  | cons n ns ih =>
    obtain ⟨hfirst, hrest⟩ := List.forall_mem_cons.mp hns
    obtain ⟨hn, hbelow⟩ := List.forall_mem_cons.mp h
    rw [nodesWithoutInternal, renderNodes, renderNodes, hfirst.same hn, ih hrest hbelow]

theorem renderNodes_shrink {ns : List Node} {blocks : List Block} (hns : ComparesEach place ns)
    (h : renderNodes place ns = .ok blocks) :
    ∃ blocks', renderNodes place (nodesWithoutInternal ns) = .ok blocks' ∧
      blocks'.map Block.spreads = blocks.map Block.spreads ∧
      (blocks'.map Block.text).flatten.length ≤ (blocks.map Block.text).flatten.length ∧
      ((blocks.map Block.text).flatten.length ≤ (blocks'.map Block.text).flatten.length →
        ∀ m ∈ ns, SlotsHideInternal place m) := by
  induction ns generalizing blocks with
  | nil =>
    obtain rfl := Except.ok.inj h
    exact ⟨[], rfl, rfl, le_refl _, fun _ => List.forall_mem_nil _⟩
  | cons n ns ih =>
    obtain ⟨hfirst, hrest⟩ := List.forall_mem_cons.mp hns
    obtain ⟨b, hb, h⟩ := bind_eq_ok.mp h
    obtain ⟨others, hothers, h⟩ := bind_eq_ok.mp h
    obtain rfl := Except.ok.inj h
    obtain ⟨b', hb', hspreads, hshorter, hhides⟩ := hfirst.shrinks b hb
    obtain ⟨others', hothers', hmore, hle, hall⟩ := ih hrest hothers
    refine ⟨b' :: others', ?_, ?_, ?_, fun h => List.forall_mem_cons.mpr ⟨hhides ?_, hall ?_⟩⟩
    · rw [nodesWithoutInternal, renderNodes, hb', ok_bind, hothers']
      rfl
    · rw [List.map_cons, List.map_cons, hspreads, hmore]
    · simp only [List.map_cons, List.flatten_cons, List.length_append]
      omega
    all_goals
      simp only [List.map_cons, List.flatten_cons, List.length_append] at h
      omega

theorem text_joined (sep : Text) (blocks : List Block) (spreads : List Text) :
    Block.text ⟨joinPieces sep (blocks.map Block.pieces), spreads⟩ = join sep (blocks.map Block.text) := by
  rw [Block.text, piecesText_joinPieces, List.map_map]
  rfl

theorem compares_children {ns : List Node} (hns : ComparesEach place ns) (sep : Text) :
    Compares (∀ m ∈ ns, SlotsHideInternal place m) (renderChildren place sep (nodesWithoutInternal ns))
      (renderChildren place sep ns) := by
  have hjoin : ∀ blocks, joinBlocks sep (nodesWithoutInternal ns) blocks = joinBlocks sep ns blocks :=
    fun blocks => by rw [joinBlocks, joinBlocks, all_canBeJoined_withoutInternal]
  refine ⟨fun h => ?_, fun b hb => ?_⟩
  · rw [renderChildren, renderChildren, renderNodes_same hns h]
    exact bind_congr hjoin
  · obtain ⟨blocks, hblocks, hb⟩ := bind_eq_ok.mp hb
    obtain ⟨blocks', hblocks', hspreads, hle, hall⟩ := renderNodes_shrink hns hblocks
    -- Both are joined with as many separators, so the texts alone decide which is longer.
    have hcount : blocks'.length = blocks.length := by simpa using congrArg List.length hspreads
    rw [joinBlocks] at hb
    split at hb
    next hjoined =>
      obtain rfl := Except.ok.inj hb
      refine ⟨_, by rw [renderChildren, hblocks', ok_bind, hjoin, joinBlocks, if_pos hjoined], ?_⟩
      refine ⟨by rw [hspreads], ?_, fun h => hall ?_⟩
      · rw [text_joined, text_joined, length_join, length_join]
        simp only [List.length_map, hcount]
        omega
      · rw [text_joined, text_joined, length_join, length_join] at h
        simp only [List.length_map, hcount] at h
        omega
    next => cases hb

theorem compares_slot (hns : ComparesEach (place.inside .slot) n.children) :
    Compares (HidesInternal n.bindings ∧ ∀ m ∈ n.children, SlotsHideInternal (place.inside .slot) m)
      (renderBy place (withoutInternal n) .slot) (renderBy place n .slot) := by
  have hbody := compares_children hns "\n"
  simp only [renderBy, slotAttributes_withoutInternal, withoutInternal_bindings, withoutInternal_children]
  refine .after _ fun attributes _ => ⟨?_, fun c hc => ?_⟩
  · rintro ⟨hhides, hbelow⟩
    rw [nestedCodes_of_hides hhides, hbody.same hbelow]
  · obtain ⟨nested, hnested, hc⟩ := bind_eq_ok.mp hc
    obtain ⟨body, hb, hc⟩ := bind_eq_ok.mp hc
    obtain ⟨shown, hshown, hc⟩ := bind_eq_ok.mp hc
    obtain rfl := Except.ok.inj hc
    obtain ⟨nested', hnested', hsub, hhides⟩ := nestedCodes_shrink hnested
    obtain ⟨body', hbody', hspreads, hshorter, hbelow⟩ := hbody.shrinks body hb
    obtain ⟨shown', hshown', hle, hstrict⟩ :=
      slotBody_shrinks hshown hsub (isGiven_of_nestedCodes hnested) hshorter
    refine ⟨⟨element "slot" attributes shown', body'.spreads⟩, ?_, hspreads, ?_, fun h => ?_⟩
    · rw [hnested', ok_bind, hbody', ok_bind, hshown']
      rfl
    · simp only [Block.text, text_element, List.length_append]
      omega
    · simp only [Block.text, text_element, List.length_append] at h
      obtain ⟨hcodes, hchildren⟩ := hstrict (by omega)
      exact ⟨hhides hcodes, hbelow hchildren⟩

end Comparison

section Nodes

variable {place inner : Place} {n m : Node}

variable (place) in
theorem slotsHideInternal_of_rule {rule : BlockRule} (hrule : blockRule n = .ok rule) :
    SlotsHideInternal place n ↔ (rule = .slot → HidesInternal n.bindings) ∧
      (∀ inner, bodyPlace? place n rule = some inner → ∀ m ∈ n.children, SlotsHideInternal inner m) ∧
      (rule = .conditional → ∀ m, n.elseBranch = some m → SlotsHideInternal (place.inside .otherwise) m) := by
  rw [slotsHideInternal_iff, hrule]
  simp only [renders_iff hrule]
  grind

/-- One node, when the nodes below it are compared. -/
theorem compares_step (hchildren : ∀ inner, ComparesEach inner n.children)
    (hbranch : ∀ inner m, n.elseBranch = some m → Compares (SlotsHideInternal inner m)
      (renderNode inner (withoutInternal m)) (renderNode inner m)) :
    Compares (SlotsHideInternal place n) (renderNode place (withoutInternal n)) (renderNode place n) := by
  rw [renderNode_eq_renderBy, renderNode_eq_renderBy, blockRule_withoutInternal]
  refine .after _ fun rule hrule => ?_
  have hbody : ∀ inner, Compares (∀ m ∈ n.children, SlotsHideInternal inner m)
      (renderChildren inner "\n" (withoutInternal n).children) (renderChildren inner "\n" n.children) :=
    fun inner => by
      rw [withoutInternal_children]
      exact compares_children (hchildren inner) "\n"
  have hiff := slotsHideInternal_of_rule place hrule
  cases rule with
  | fragment => exact (hbody _).congr (by simp [hiff, bodyPlace?])
  | slot => exact (compares_slot (hchildren _)).congr (by simp [hiff, bodyPlace?])
  | childrenPlaceholder | literalText value | interpolation code =>
    exact .refl (by simp [hiff, bodyPlace?]) _
  | loop =>
    simp only [renderBy, loopCollection_withoutInternal, loopHead_withoutInternal, withoutInternal_scope]
    refine .after _ fun collection _ => ?_
    refine ((hbody (loopPlace n.scope place)).around ?_).congr (by simp [hiff, bodyPlace?])
    exact fun b' b h => h.element templateTag _
  | conditional =>
    simp only [renderBy, positiveBlock_withoutInternal, withoutInternal_elseBranch]
    have hpositive : ∀ {hidden : Prop} (b' b : Block), b'.Shrinks hidden b →
        (positiveBlock n b').Shrinks hidden (positiveBlock n b) := fun b' b h => h.element templateTag _
    cases helse : n.elseBranch with
    | none =>
      refine ((hbody _).around hpositive).congr ?_
      simp [hiff, bodyPlace?, helse]
    | some m =>
      simp only [branchWithoutInternal, renderBranch, bind_assoc, pure_bind]
      refine ((hbody _).both (hbranch (place.inside .otherwise) m helse) ?_).congr ?_
      · exact fun b' b k' k h hk => (hpositive b' b h).withBranch hk
      · simp [hiff, bodyPlace?, helse]
  | element =>
    -- What is emitted is the same, so only the body is compared, and a void element has none.
    simp only [renderBy, withoutInternal_name, emitAll_withoutInternal, propertyAttributes_withoutInternal]
    refine .after _ fun name hname => .after _ fun emitted _ => ?_
    rw [← isVoid_eq_of_name (textOr_eq_ok hname)]
    cases hvoid : Node.isVoid n with
    | true => exact .refl (by simp [hiff, bodyPlace?, hvoid]) _
    | false =>
      refine ((hbody _).around fun b' b h => h.elementBlock _ _ emitted).congr ?_
      simp [hiff, bodyPlace?, hvoid]

theorem compares_renderNode (place : Place) (n : Node) :
    Compares (SlotsHideInternal place n) (renderNode place (withoutInternal n)) (renderNode place n) := by
  induction n using Node.induction_below generalizing place with
  | step n ih =>
    exact compares_step (fun inner m hm => ih m (.inl hm) inner) fun inner m hm => ih m (.inr hm) inner

end Nodes

/-- Internal keys never reach the view, but for the code that a slot has under one: the tree without
    them is rendered with the same spreads, and with the same text exactly when there is no such code. -/
theorem internal_keys_shown_by_slots (place : Place) (n : Node) :
    (SlotsHideInternal place n → renderNode place (withoutInternal n) = renderNode place n) ∧
      ∀ b, renderNode place n = .ok b → ∃ b', renderNode place (withoutInternal n) = .ok b' ∧
        b'.spreads = b.spreads ∧ (b'.text = b.text ↔ SlotsHideInternal place n) := by
  obtain ⟨hsame, hshrinks⟩ := compares_renderNode place n
  refine ⟨hsame, fun b hb => ?_⟩
  obtain ⟨b', hb', hspreads, -, hhides⟩ := hshrinks b hb
  refine ⟨b', hb', hspreads, fun htext => hhides (by rw [htext]), fun h => ?_⟩
  rw [hsame h, hb] at hb'
  rw [Except.ok.inj hb']

/-- An element and a slot in it, both with bookkeeping of the parser. -/
def tracedSlot (code : Text) : Node :=
  let slot : Node := ⟨.str "Slot", [("name", .str "header"), ("$line", .str "4")],
    [("$id", some (.ofCode (.str code) .normal))], [], .empty, none, []⟩
  ⟨.str "div", [("$line", .str "3")],
    [("$id", some (.ofCode (.str "state.id") .normal)), ("class", some (.ofCode (.str "tone") .normal))],
    [slot], .empty, none, []⟩

theorem internal_keys_shown_by_slots_traced : SlotsHideInternal .start (tracedSlot "") ∧
    renderNode .start (withoutInternal (tracedSlot "")) = renderNode .start (tracedSlot "") ∧
    ∃ b, renderNode .start (tracedSlot "") = .ok b ∧
      b.text = "<div class=\"$\x7btone\x7d\"><slot name=\"header\"></slot>\n</div>" := by
  obtain ⟨hsame, hshown⟩ := internal_keys_shown_by_slots .start (tracedSlot "")
  obtain ⟨b', hb', _, htext⟩ := hshown _ rfl
  have hhides : SlotsHideInternal .start (tracedSlot "") := by
    refine htext.mp ?_
    obtain rfl := Except.ok.inj (hb'.symm.trans rfl)
    rfl
  exact ⟨hhides, hsame hhides, _, rfl, rfl⟩

/-- The code that a slot has under an internal key is in its text. -/
theorem internal_code_shown_in_slot : ∃ b b', renderNode .start (tracedSlot "x") = .ok b ∧
    renderNode .start (withoutInternal (tracedSlot "x")) = .ok b' ∧
    b.text = "<div class=\"$\x7btone\x7d\"><slot name=\"header\">x</slot>\n</div>" ∧
    b'.text = "<div class=\"$\x7btone\x7d\"><slot name=\"header\"></slot>\n</div>" :=
  ⟨_, _, rfl, rfl, rfl, rfl⟩

end ElementCompiler.Markup
