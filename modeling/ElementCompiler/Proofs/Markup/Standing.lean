import ElementCompiler.Proofs.Markup.Elements
import ElementCompiler.Proofs.Markup.Rules

set_option autoImplicit false

/-!
Where a node stands in a rendered tree. Rendering a node renders some of the nodes below it, each at
a place of its own; their blocks stand in the block of the node, and nothing stands there that none
of them writes.
-/

namespace ElementCompiler.Markup

open Attempt Text

/-- Rendering a node at a place renders another one at its own place. -/
inductive Renders (place : Place) (n : Node) : Place → Node → Prop
  | fragment {m : Node} : blockRule n = .ok .fragment → m ∈ n.children →
    Renders place n (place.inside .fragment) m
  | slot {m : Node} : blockRule n = .ok .slot → m ∈ n.children →
    Renders place n (place.inside .slot) m
  | loop {m : Node} : blockRule n = .ok .loop → m ∈ n.children →
    Renders place n (loopPlace n.scope place) m
  | conditional {m : Node} : blockRule n = .ok .conditional → m ∈ n.children →
    Renders place n (place.inside .conditional) m
  | otherwise {m : Node} : blockRule n = .ok .conditional → n.elseBranch = some m →
    Renders place n (place.inside .otherwise) m
  | element {m : Node} : blockRule n = .ok .element → Node.isVoid n = false → m ∈ n.children →
    Renders place n (place.inside .children) m

/-- A node that is rendered with the node, at the place where it is. -/
inductive StandsIn : Place → Node → Place → Node → Prop
  | self (place : Place) (n : Node) : StandsIn place n place n
  | step {place inner place' : Place} {n k m : Node} : Renders place n inner k →
    StandsIn inner k place' m → StandsIn place n place' m

section Places

variable {place inner place' : Place} {n m : Node}

/-- Where the children of a node stand, when its rule renders them. -/
def bodyPlace? (place : Place) (n : Node) : BlockRule → Option Place
  | .fragment => some (place.inside .fragment)
  | .slot => some (place.inside .slot)
  | .loop => some (loopPlace n.scope place)
  | .conditional => some (place.inside .conditional)
  | .element => if Node.isVoid n then none else some (place.inside .children)
  | _ => none

theorem renders_iff {rule : BlockRule} (hrule : blockRule n = .ok rule) : Renders place n inner m ↔
    bodyPlace? place n rule = some inner ∧ m ∈ n.children ∨
      rule = .conditional ∧ place.inside .otherwise = inner ∧ n.elseBranch = some m := by
  constructor
  · intro h
    cases h with
    | fragment h hm | slot h hm | loop h hm | conditional h hm =>
      obtain rfl := Except.ok.inj (hrule.symm.trans h)
      exact .inl ⟨rfl, hm⟩
    | otherwise h hm =>
      obtain rfl := Except.ok.inj (hrule.symm.trans h)
      exact .inr ⟨rfl, rfl, hm⟩
    | element h hvoid hm =>
      obtain rfl := Except.ok.inj (hrule.symm.trans h)
      exact .inl ⟨by simp [bodyPlace?, hvoid], hm⟩
  · rintro (⟨hplace, hm⟩ | ⟨rfl, rfl, hm⟩)
    · cases rule with
      | fragment => exact Option.some.inj hplace ▸ .fragment hrule hm
      | slot => exact Option.some.inj hplace ▸ .slot hrule hm
      | loop => exact Option.some.inj hplace ▸ .loop hrule hm
      | conditional => exact Option.some.inj hplace ▸ .conditional hrule hm
      | element =>
        cases hvoid : Node.isVoid n <;> simp only [bodyPlace?, hvoid] at hplace
        · exact Option.some.inj hplace ▸ .element hrule hvoid hm
        · cases hplace
      | _ => cases hplace
    · exact .otherwise hrule hm

theorem mem_withIndex {names : Text} {name : Text} (h : name ∈ place.indexNames) :
    name ∈ (place.withIndex names).indexNames := by
  unfold Place.withIndex
  split
  next => exact h
  next => exact List.mem_append_left _ h

theorem mem_loopPlace {scope : Scope} {name : Text} (h : name ∈ place.indexNames) :
    name ∈ (loopPlace scope place).indexNames := by
  unfold loopPlace
  split
  next => exact mem_withIndex h
  next => exact h

/-- An index name that is known where a node stands is known where the nodes below it stand. -/
theorem Renders.indexNames (h : Renders place n inner m) {name : Text}
    (hname : name ∈ place.indexNames) : name ∈ inner.indexNames := by
  cases h with
  | loop => exact mem_loopPlace hname
  | _ => exact hname

theorem StandsIn.indexNames (h : StandsIn place n place' m) {name : Text}
    (hname : name ∈ place.indexNames) : name ∈ place'.indexNames := by
  induction h with
  | self => exact hname
  | step hfirst _ ih => exact ih (hfirst.indexNames hname)

theorem callableNames_withIndex {name : Text} :
    (place.withIndex name).callableNames = place.callableNames := by
  unfold Place.withIndex
  split <;> rfl

theorem Renders.callableNames (h : Renders place n inner m) :
    inner.callableNames = place.callableNames := by
  cases h with
  | loop =>
    unfold loopPlace
    split
    next => exact callableNames_withIndex
    next => rfl
  | _ => rfl

theorem StandsIn.callableNames (h : StandsIn place n place' m) :
    place'.callableNames = place.callableNames := by
  induction h with
  | self => rfl
  | step hfirst _ ih => rw [ih, hfirst.callableNames]

end Places

section Blocks

variable {place inner place' : Place} {n m : Node} {b body : Block}

/-- The pieces of a block that shows anything stand in another block. -/
def Block.Within (inner outer : Block) : Prop :=
  inner.text ≠ [] → inner.pieces <:+: outer.pieces

theorem Block.Within.refl (b : Block) : b.Within b := fun _ => List.infix_refl _

theorem text_ne_nil_of_pieces {inner outer : Block} (h : inner.pieces <:+: outer.pieces)
    (htext : inner.text ≠ []) : outer.text ≠ [] := by
  obtain ⟨before, after, heq⟩ := h
  intro hnil
  unfold Block.text at hnil htext
  rw [← heq, piecesText_append, piecesText_append] at hnil
  exact htext (List.append_eq_nil_iff.mp (List.append_eq_nil_iff.mp hnil).1).2

theorem Block.Within.trans {first second third : Block} (h : first.Within second)
    (h' : second.Within third) : first.Within third := fun htext =>
  (h htext).trans (h' (text_ne_nil_of_pieces (h htext) htext))

theorem infix_joinPieces (sep : Text) {groups : List (List Piece)} {g : List Piece} (h : g ∈ groups) :
    g <:+: joinPieces sep groups := by
  induction groups with
  | nil => cases h
  | cons first groups ih =>
    cases groups with
    | nil =>
      rw [List.mem_singleton.mp h]
      exact List.infix_refl _
    | cons second groups =>
      change g <:+: first ++ .raw sep :: joinPieces sep (second :: groups)
      rcases List.mem_cons.mp h with rfl | h
      · exact (List.prefix_append _ _).isInfix
      · exact ((ih h).trans (List.suffix_cons _ _).isInfix).trans (List.suffix_append _ _).isInfix

theorem JoinsBlocks.exists_piecesWithin {R : Node → Block → Prop} {sep : Text} {ns : List Node}
    (h : JoinsBlocks R sep ns b) (hm : m ∈ ns) : ∃ k, R m k ∧ k.pieces <:+: b.pieces := by
  obtain ⟨blocks, hblocks, h⟩ := h
  obtain ⟨k, hk, hmk⟩ := exists_right hblocks m hm
  unfold joinBlocks at h
  split at h
  next =>
    obtain rfl := Except.ok.inj h
    exact ⟨k, hmk, infix_joinPieces sep (List.mem_map_of_mem hk)⟩
  next => cases h

theorem exists_renderNode_of_children {sep : Text} {ns : List Node}
    (h : renderChildren place sep ns = .ok b) (hm : m ∈ ns) :
    ∃ k, renderNode place m = .ok k ∧ k.pieces <:+: b.pieces :=
  (joinsBlocks_of_renderChildren h).exists_piecesWithin hm

theorem infix_element (tag : Text) (attributes : List Attribute) (pieces : List Piece) :
    pieces <:+: element tag attributes pieces :=
  (List.prefix_append pieces _).isInfix.trans (List.suffix_cons _ _).isInfix

/-- A slot leaves out children that show nothing. -/
theorem infix_slotBody {nested : List Json} {pieces shown : List Piece}
    (h : slotBody nested pieces = .ok shown) (htext : piecesText pieces ≠ []) :
    pieces <:+: shown := by
  obtain ⟨codes, _, h⟩ := bind_eq_ok.mp h
  obtain rfl := Except.ok.inj h
  rw [if_neg (by simpa using htext)]
  exact infix_joinPieces _ (List.mem_append_right _ List.mem_cons_self)

theorem infix_elementBlock (selector : Text) (attributes : List Attribute) (emitted : Emitted)
    (body : Block) : body.pieces <:+: (elementBlock selector attributes emitted body).pieces := by
  refine List.IsInfix.trans ?_ (List.suffix_cons _ _).isInfix
  rw [List.append_assoc]
  exact (List.prefix_append body.pieces _).isInfix.trans (List.suffix_append _ _).isInfix

theorem infix_withBranch_positive (positive : Block) (negative : Option Block) :
    positive.pieces <:+: (withBranch positive negative).pieces := by
  cases negative with
  | none => exact List.infix_refl _
  | some k => exact (List.prefix_append _ _).isInfix

theorem infix_withBranch_negative (positive k : Block) :
    k.pieces <:+: (withBranch positive (some k)).pieces := by
  have hbody : k.pieces <:+: Piece.raw "\n" :: (k.pieces ++ [.raw "\n"]) :=
    (List.prefix_append _ _).isInfix.trans (List.suffix_cons _ _).isInfix
  exact ((hbody.trans (infix_element templateTag _ _)).trans (List.suffix_cons _ _).isInfix).trans
    (List.suffix_append _ _).isInfix

/-- One step down: a node that is rendered with another one is rendered, and its block stands in the
    block of that one. -/
theorem Renders.within (h : Renders place n inner m) (hb : renderNode place n = .ok b) :
    ∃ k, renderNode inner m = .ok k ∧ k.Within b := by
  cases h with
  | fragment hrule hm =>
    cases givesBlock_of_rule hrule hb with
    | fragment hbody =>
      obtain ⟨k, hk, hwithin⟩ := hbody.exists_piecesWithin hm
      exact ⟨k, hk, fun _ => hwithin⟩
  | slot hrule hm =>
    cases givesBlock_of_rule hrule hb with
    | slot _ _ hbody hpieces =>
      obtain ⟨k, hk, hwithin⟩ := hbody.exists_piecesWithin hm
      refine ⟨k, hk, fun htext => ?_⟩
      have hslot := infix_slotBody hpieces (text_ne_nil_of_pieces hwithin htext)
      exact (hwithin.trans hslot).trans (infix_element "slot" _ _)
  | loop hrule hm =>
    cases givesBlock_of_rule hrule hb with
    | loop _ hbody =>
      obtain ⟨k, hk, hwithin⟩ := hbody.exists_piecesWithin hm
      exact ⟨k, hk, fun _ => hwithin.trans (infix_element templateTag _ _)⟩
  | conditional hrule hm =>
    cases givesBlock_of_rule hrule hb with
    | @conditional body negative hbody _ =>
      obtain ⟨k, hk, hwithin⟩ := hbody.exists_piecesWithin hm
      have hpositive : body.pieces <:+: (positiveBlock n body).pieces := infix_element templateTag _ _
      exact ⟨k, hk, fun _ => (hwithin.trans hpositive).trans (infix_withBranch_positive _ negative)⟩
  | otherwise hrule hm =>
    cases givesBlock_of_rule hrule hb with
    | conditional _ hbranch =>
      rw [hm] at hbranch
      cases hbranch with
      | some hk => exact ⟨_, hk, fun _ => infix_withBranch_negative _ _⟩
  | element hrule hvoid hm =>
    cases givesBlock_of_rule hrule hb with
    | void _ _ hself => exact absurd (hself.symm.trans hvoid) (by decide)
    | element _ _ _ hbody =>
      obtain ⟨k, hk, hwithin⟩ := hbody.exists_piecesWithin hm
      exact ⟨k, hk, fun _ => hwithin.trans (infix_elementBlock _ _ _ _)⟩

theorem StandsIn.within (h : StandsIn place n place' m) (hb : renderNode place n = .ok b) :
    ∃ k, renderNode place' m = .ok k ∧ k.Within b := by
  induction h generalizing b with
  | self => exact ⟨b, hb, .refl b⟩
  | step hfirst _ ih =>
    obtain ⟨inner, hinner, hwithin⟩ := hfirst.within hb
    obtain ⟨k, hk, hrest⟩ := ih hinner
    exact ⟨k, hk, hrest.trans hwithin⟩

end Blocks

/-- The pieces that the rule of a node writes itself, closing tags and line breaks apart. -/
inductive Writes (place : Place) (n : Node) : Piece → Prop
  | literal {value : Json} : blockRule n = .ok (.literalText value) →
    Writes place n (.raw value.display)
  | interpolation {code : Text} {p : Piece} : blockRule n = .ok (.interpolation code) →
    p ∈ interpolation code place → Writes place n p
  | placeholder : blockRule n = .ok .childrenPlaceholder → Writes place n (.opening "slot" [])
  | slot {attributes : List Attribute} : blockRule n = .ok .slot →
    slotAttributes n = .ok attributes → Writes place n (.opening "slot" attributes)
  | nested {codes : List Json} {code : Text} : blockRule n = .ok .slot →
    nestedCodes n.bindings = .ok codes → .str code ∈ codes → Writes place n (.raw code)
  | loop {collection : Text} : blockRule n = .ok .loop → loopCollection n = .ok collection →
    Writes place n (.opening templateTag [loopHead n collection])
  | condition : blockRule n = .ok .conditional →
    Writes place n (.opening templateTag [.of "if.bind" (conditionText n)])
  | otherwise : blockRule n = .ok .conditional →
    Writes place n (.opening templateTag [⟨"else", none⟩])
  | element {name : Text} {emitted : Emitted} : blockRule n = .ok .element → n.name = .str name →
    emitAll n place = .ok emitted →
    Writes place n (.opening (elementSelector name) (propertyAttributes n ++ emitted.attributes))
  | void {name : Text} {emitted : Emitted} : blockRule n = .ok .element → n.name = .str name →
    emitAll n place = .ok emitted →
    Writes place n (.alone (elementSelector name) (propertyAttributes n ++ emitted.attributes))
  | deferred {emitted : Emitted} {slot : Text} : blockRule n = .ok .element →
    emitAll n place = .ok emitted → slot ∈ emitted.deferredSlots → Writes place n (.raw slot)

/-- Closing tags and the line breaks between blocks. -/
def Piece.IsGlue (p : Piece) : Prop := p = .raw "\n" ∨ ∃ tag, p = .closing tag

/-- The piece is glue, or a node that is rendered with the node writes it. -/
def Traced (place : Place) (n : Node) (p : Piece) : Prop :=
  p.IsGlue ∨ ∃ place' m, StandsIn place n place' m ∧ Writes place' m p

section Pieces

variable {place inner : Place} {n m : Node} {b : Block} {p : Piece}

theorem Piece.isGlue_break : Piece.IsGlue (.raw "\n") := .inl rfl

theorem Piece.isGlue_closing (tag : Text) : Piece.IsGlue (.closing tag) := .inr ⟨tag, rfl⟩

theorem Writes.traced (h : Writes place n p) : Traced place n p := .inr ⟨place, n, .self place n, h⟩

theorem Traced.step (h : Traced inner m p) (hrenders : Renders place n inner m) : Traced place n p :=
  h.imp_right fun ⟨place', k, hstands, hwrites⟩ => ⟨place', k, .step hrenders hstands, hwrites⟩

theorem traced_element {tag : Text} {attributes : List Attribute} {pieces : List Piece}
    (hopens : Traced place n (.opening tag attributes)) (hpieces : ∀ q ∈ pieces, Traced place n q) :
    ∀ q ∈ element tag attributes pieces, Traced place n q := by
  intro q hq
  rcases List.mem_cons.mp hq with rfl | hq
  · exact hopens
  · rcases List.mem_append.mp hq with hq | hq
    · exact hpieces q hq
    · rw [List.mem_singleton.mp hq]
      exact .inl (Piece.isGlue_closing tag)

/-- The pieces of a block are traced to the node. -/
def TracesTo (place : Place) (n : Node) (b : Block) : Prop := ∀ q ∈ b.pieces, Traced place n q

theorem traced_joinsBlocks {ns : List Node} {body : Block}
    (hbody : JoinsBlocks (TracesTo inner) "\n" ns body) (hrenders : ∀ m ∈ ns, Renders place n inner m) :
    TracesTo place n body := by
  obtain ⟨blocks, hblocks, hbody⟩ := hbody
  unfold joinBlocks at hbody
  split at hbody
  next =>
    obtain rfl := Except.ok.inj hbody
    intro q hq
    rcases mem_joinPieces hq with rfl | ⟨g, hg, hq⟩
    · exact .inl Piece.isGlue_break
    · obtain ⟨k, hk, rfl⟩ := List.mem_map.mp hg
      obtain ⟨m, hm, htraced⟩ := exists_left hblocks k hk
      exact (htraced q hq).step (hrenders m hm)
  next => cases hbody

theorem traced_slotBody {nested : List Json} {pieces shown : List Piece}
    (h : slotBody nested pieces = .ok shown) (hpieces : ∀ q ∈ pieces, Traced place n q)
    (hnested : ∀ code, .str code ∈ nested → Traced place n (.raw code)) :
    ∀ q ∈ shown, Traced place n q := by
  obtain ⟨codes, hcodes, h⟩ := bind_eq_ok.mp h
  obtain rfl := Except.ok.inj h
  have hraw : ∀ g ∈ codes.map (fun code => [Piece.raw code]), ∀ q ∈ g, Traced place n q := by
    intro g hg q hq
    obtain ⟨code, hcode, rfl⟩ := List.mem_map.mp hg
    obtain ⟨j, hj, htext⟩ := exists_left (mapM_eq_ok.mp hcodes) code hcode
    rw [List.mem_singleton.mp hq]
    exact hnested code (textOr_eq_ok htext ▸ hj)
  intro q hq
  rcases mem_joinPieces hq with rfl | ⟨g, hg, hq⟩
  · exact .inl Piece.isGlue_break
  · split at hg
    next => exact hraw g hg q hq
    next =>
      rcases List.mem_append.mp hg with hg | hg
      · exact hraw g hg q hq
      · rw [List.mem_singleton.mp hg] at hq
        exact hpieces q hq

theorem traced_elementBlock {tag : Text} {attributes : List Attribute} {emitted : Emitted} {body : Block}
    (hopens : Traced place n (.opening tag (attributes ++ emitted.attributes)))
    (hslots : ∀ slot ∈ emitted.deferredSlots, Traced place n (.raw slot))
    (hbody : ∀ q ∈ body.pieces, Traced place n q) :
    ∀ q ∈ (elementBlock tag attributes emitted body).pieces, Traced place n q := by
  have hraw : ∀ q ∈ emitted.deferredSlots.map Piece.raw, Traced place n q := List.forall_mem_map.mpr hslots
  refine List.forall_mem_cons.mpr ⟨hopens, List.forall_mem_append.mpr ⟨?_, ?_⟩⟩
  · exact List.forall_mem_append.mpr ⟨hraw, hbody⟩
  · exact List.forall_mem_cons.mpr ⟨.inl Piece.isGlue_break,
      List.forall_mem_singleton.mpr (.inl (Piece.isGlue_closing _))⟩

theorem traced_withBranch {branch : Option Node} {positive : Block} {negative : Option Block}
    (hpositive : TracesTo place n positive) (hnegative : Option.Rel (TracesTo inner) branch negative)
    (hopens : Traced place n (.opening templateTag [⟨"else", none⟩]))
    (hrenders : ∀ m, branch = some m → Renders place n inner m) :
    TracesTo place n (withBranch positive negative) := by
  cases hnegative with
  | none => exact hpositive
  | @some m k hk =>
    have hbreak : Traced place n (.raw "\n") := .inl Piece.isGlue_break
    have hbranch : TracesTo place n k := fun q hq => (hk q hq).step (hrenders m rfl)
    refine List.forall_mem_append.mpr ⟨hpositive, List.forall_mem_cons.mpr ⟨hbreak, ?_⟩⟩
    refine traced_element hopens (List.forall_mem_cons.mpr ⟨hbreak, ?_⟩)
    exact List.forall_mem_append.mpr ⟨hbranch, List.forall_mem_singleton.mpr hbreak⟩

/-- One node, when what the nodes below it give is traced to them. -/
theorem traced_of_givesBlock {rule : BlockRule} (hrule : blockRule n = .ok rule)
    (h : GivesBlock TracesTo place n rule b) : TracesTo place n b := by
  cases h with
  | fragment hbody => exact traced_joinsBlocks hbody fun m hm => .fragment hrule hm
  | slot hattributes hnested hbody hpieces =>
    refine traced_element (Writes.slot hrule hattributes).traced (traced_slotBody hpieces ?_ ?_)
    · exact traced_joinsBlocks hbody fun m hm => .slot hrule hm
    · exact fun code hcode => (Writes.nested hrule hnested hcode).traced
  | childrenPlaceholder => exact traced_element (Writes.placeholder hrule).traced (List.forall_mem_nil _)
  | literalText => exact List.forall_mem_singleton.mpr (Writes.literal hrule).traced
  | interpolation => exact fun q hq => (Writes.interpolation hrule hq).traced
  | loop hcollection hbody =>
    exact traced_element (Writes.loop hrule hcollection).traced
      (traced_joinsBlocks hbody fun m hm => .loop hrule hm)
  | @conditional body _ hbody hbranch =>
    have hpositive : TracesTo place n (positiveBlock n body) :=
      traced_element (Writes.condition hrule).traced
        (traced_joinsBlocks hbody fun m hm => .conditional hrule hm)
    exact traced_withBranch hpositive hbranch (Writes.otherwise hrule).traced
      fun m hm => .otherwise hrule hm
  | void hname hemitted _ => exact List.forall_mem_singleton.mpr (Writes.void hrule hname hemitted).traced
  | element hname hemitted hvoid hbody =>
    exact traced_elementBlock (Writes.element hrule hname hemitted).traced
      (fun slot hslot => (Writes.deferred hrule hemitted hslot).traced)
      (traced_joinsBlocks hbody fun m hm => .element hrule hvoid hm)

/-- Every piece of a block is glue or is written by a node that is rendered in it. -/
theorem traced_renderNode (h : renderNode place n = .ok b) : ∀ q ∈ b.pieces, Traced place n q :=
  renderNode_induction (motive := TracesTo) (Q := fun _ => True) (fun _ => traced_of_givesBlock)
    (fun _ _ => trivial) h

end Pieces

end ElementCompiler.Markup
