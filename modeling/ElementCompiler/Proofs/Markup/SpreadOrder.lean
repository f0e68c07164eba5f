import ElementCompiler.Proofs.Distinct
import ElementCompiler.Proofs.Markup.Spreads

set_option autoImplicit false

/-!
The sources that a rendered tree spreads, in the order of its tags. Every join of blocks keeps the first
occurrences only, and cutting down parts first makes no difference to the whole. A void element has no
join: what it spreads stays as it was emitted.
-/

namespace ElementCompiler.Markup

open Attempt Text

/-- Whether the node is rendered as an element. -/
def isElement (n : Node) : Bool :=
  match blockRule n with
  | .ok .element => true
  | _ => false

/-- The sources that the tag of an element spreads, in the order of its attributes: what its spread keys
    name, as far as this is found among its sources. -/
def tagSpreads (n : Node) : List Text :=
  match spreadSources n.bindings with
  | .ok sources => (spreadTargets n).filter fun target => (sourcePlace? target sources).isSome
  | .error _ => []

/-- The sources that rendered nodes spread, one node after the other. -/
def emittedSpreads (ns : List Node) : List Text := (ns.filter isElement).flatMap tagSpreads

/-- The attribute spreads the source. -/
def IsSpreadOf (a : Attribute) (source : Text) : Prop := ∃ count place, a = spreadAttribute count place source

/-- The tag of an element, whose spread attributes are for the sources of the element in their order. -/
def SpreadsOnTag (n : Node) (p : Piece) : Prop :=
  p.isTag = true ∧ ∃ place attributes, Writes place n p ∧ EmitsSpreads n place p attributes ∧
    List.Forall₂ IsSpreadOf attributes (tagSpreads n)

/-- Pieces with the tags of these elements in their order. No other piece has an attribute under the name
    of a spread attribute. -/
inductive TagsInOrder : List Piece → List Node → Prop where
  | nil : TagsInOrder [] []
  | other {p : Piece} {ps : List Piece} {ns : List Node} : (∀ a ∈ p.attributes, isSpreadName a.name = false) →
      TagsInOrder ps ns → TagsInOrder (p :: ps) ns
  | tag {n : Node} {p : Piece} {ps : List Piece} {ns : List Node} : SpreadsOnTag n p →
      TagsInOrder ps ns → TagsInOrder (p :: ps) (n :: ns)

/-- The text of a block has the tags of the elements among the nodes, in their order. Where the attributes
    of the elements have names of their own, the spread attributes can be read off the text: there is one
    for each source that is spread, in the same order. -/
structure ShowsInOrder (ns : List Node) (b : Block) : Prop where
  tags : TagsInOrder b.pieces (ns.filter isElement)
  named : (∀ n ∈ ns.filter isElement, NamesNoSpread n) → List.Forall₂ IsSpreadOf
    (b.pieces.flatMap fun p => p.attributes.filter fun a => isSpreadName a.name) (emittedSpreads ns)

/-- A block collects the sources that the nodes spread, each where it comes first. -/
structure CollectsOnce (ns : List Node) (b : Block) : Prop where
  nodup : b.spreads.Nodup
  first : b.spreads = (emittedSpreads ns).eraseDups

/-- What the blocks of these nodes show, and what they collect but for what comes twice. -/
structure CollectsSpreads (ns : List Node) (b : Block) : Prop where
  tags : TagsInOrder b.pieces (ns.filter isElement)
  collected : b.spreads.eraseDups = (emittedSpreads ns).eraseDups

section Tags

variable {n : Node} {place : Place} {p : Piece} {sources : List Text} {attributes : List Attribute}
  {bs : Entries (Option Binding)} {es : List Emitted} {emitted : Emitted}

theorem isElement_iff : isElement n = true ↔ blockRule n = .ok .element := by
  rw [isElement]
  split
  next hrule => exact ⟨fun _ => hrule, fun _ => rfl⟩
  next hother => exact ⟨fun h => (nomatch h), fun hrule => absurd hrule hother⟩

theorem isElement_of_other {rule : BlockRule} (h : blockRule n = .ok rule) (hrule : rule ≠ .element) :
    isElement n = false := by
  refine Bool.eq_false_iff.mpr fun helement => hrule ?_
  exact Except.ok.inj (h.symm.trans (isElement_iff.mp helement))

theorem forall₂_foundSpread (targets : List Text) : List.Forall₂ IsSpreadOf
    (targets.flatMap (foundSpread sources)) (targets.filter fun target => (sourcePlace? target sources).isSome) := by
  induction targets with
  | nil => exact .nil
  | cons target targets ih =>
    rw [List.flatMap_cons, foundSpread]
    cases hplace : sourcePlace? target sources with
    | none =>
      rw [List.filter_cons_of_neg (by simp [hplace])]
      exact ih
    | some place =>
      rw [List.filter_cons_of_pos (by simp [hplace])]
      exact .cons ⟨_, place, rfl⟩ ih

theorem EmitsSpreads.forall₂ (h : EmitsSpreads n place p attributes) :
    List.Forall₂ IsSpreadOf attributes (tagSpreads n) := by
  obtain ⟨sources, es, hsources, hes, _, rfl⟩ := h
  rw [spreads_of_emitted hes, tagSpreads, hsources]
  exact forall₂_foundSpread (spreadTargets n)

theorem emitSpread_spreads (key : Text) (sources : List Text) : (emitSpread key sources).spreads =
    if (sourcePlace? (bare key) sources).isSome then [bare key] else [] := by
  unfold emitSpread
  extract_lets target
  cases sourcePlace? target sources with
  | none => rfl
  | some place => rfl

theorem spreads_of_bindings
    (h : List.Forall₂ (fun b e => ∃ x, b.2 = some x ∧ emitBinding n place sources b.1 x = .ok e) bs es) :
    es.flatMap Emitted.spreads =
      (bs.filterMap fun b => b.2.bind fun x => if x.mode = .spread then some (bare b.1) else none).filter
        fun target => (sourcePlace? target sources).isSome := by
  induction h with
  | nil => rfl
  | @cons b e bs es hb _ ih =>
    obtain ⟨key, _⟩ := b
    obtain ⟨x, rfl, hemits⟩ := hb
    rw [List.flatMap_cons, ih]
    by_cases hmode : x.mode = .spread
    · have hrule : BindingRule.of key x.mode = .spread := by rw [BindingRule.of, if_pos hmode]
      cases givesEmitted_of_rule hrule hemits
      rw [List.filterMap_cons_some (b := bare key) (by simp [hmode]), List.filter_cons, emitSpread_spreads]
      split
      next => rfl
      next => rfl
    · have hnone : e.spreads = [] := List.eq_nil_iff_forall_not_mem.mpr fun s hs =>
        hmode ((emitsBy_emitBinding hemits).spreads s hs).1
      rw [List.filterMap_cons_none (by simp [hmode]), hnone, List.nil_append]

/-- An element collects what its tag spreads. -/
theorem spreads_of_emitAll (h : emitAll n place = .ok emitted) : emitted.spreads = tagSpreads n := by
  obtain ⟨sources, hsources, h⟩ := bind_eq_ok.mp h
  obtain ⟨es, hes, h⟩ := bind_eq_ok.mp h
  obtain rfl := Except.ok.inj h
  rw [concat_spreads, spreads_of_bindings (emitBindings_eq_ok hes), tagSpreads, hsources]
  rfl

theorem spreadsOnTag (hwrites : Writes place n p) (htag : p.isTag = true) (h : emitAll n place = .ok emitted)
    (hattributes : p.attributes = propertyAttributes n ++ emitted.attributes) : SpreadsOnTag n p := by
  obtain ⟨sources, hsources, h⟩ := bind_eq_ok.mp h
  obtain ⟨es, hes, h⟩ := bind_eq_ok.mp h
  obtain rfl := Except.ok.inj h
  rw [concat_attributes] at hattributes
  have hemits : EmitsSpreads n place p _ := ⟨sources, es, hsources, emitBindings_eq_ok hes, hattributes, rfl⟩
  exact ⟨htag, place, _, hwrites, hemits, hemits.forall₂⟩

end Tags

section Order

variable {ps qs : List Piece} {ns ms : List Node} {n : Node} {b body : Block}

namespace TagsInOrder

theorem append (h : TagsInOrder ps ns) (h' : TagsInOrder qs ms) : TagsInOrder (ps ++ qs) (ns ++ ms) := by
  induction h with
  | nil => exact h'
  | other hp _ ih => exact .other hp ih
  | tag hp _ ih => exact .tag hp ih

theorem plain (h : ∀ p ∈ ps, p.isTag = false) : TagsInOrder ps [] := by
  induction ps with
  | nil => exact .nil
  | cons p ps ih =>
    obtain ⟨hp, hps⟩ := List.forall_mem_cons.mp h
    refine .other (fun a ha => ?_) (ih hps)
    rw [Piece.isTag_of_mem_attributes ha] at hp
    cases hp

theorem append_plain (h : TagsInOrder ps ns) (hqs : ∀ q ∈ qs, q.isTag = false) : TagsInOrder (ps ++ qs) ns := by
  have hall := h.append (plain hqs)
  rwa [List.append_nil] at hall

theorem joinPieces (sep : Text) {groups : List (List Piece)} {nss : List (List Node)}
    (h : List.Forall₂ TagsInOrder groups nss) : TagsInOrder (joinPieces sep groups) nss.flatten := by
  induction h with
  | nil => exact .nil
  | @cons ps ns groups nss hfirst hrest ih =>
    cases hrest with
    | nil =>
      rw [List.flatten_cons, List.flatten_nil, List.append_nil]
      exact hfirst
    | cons hsecond hmore =>
      exact hfirst.append (.other (fun a ha => nomatch ha) ih)

/-- An element of the renderer itself around the tags, under attributes of its own. -/
theorem element {tag : Text} {attributes : List Attribute} (h : TagsInOrder ps ns)
    (hattributes : ∀ a ∈ attributes, isSpreadName a.name = false) :
    TagsInOrder (Markup.element tag attributes ps) ns :=
  .other hattributes (h.append_plain (List.forall_mem_singleton.mpr rfl))

theorem named (h : TagsInOrder ps ns) (hnames : ∀ n ∈ ns, NamesNoSpread n) : List.Forall₂ IsSpreadOf
    (ps.flatMap fun p => p.attributes.filter fun a => isSpreadName a.name) (ns.flatMap tagSpreads) := by
  induction h with
  | nil => exact .nil
  | other hp _ ih =>
    rw [List.flatMap_cons, List.filter_eq_nil_iff.mpr fun a ha => by simp [hp a ha], List.nil_append]
    exact ih hnames
  | tag hp _ ih =>
    obtain ⟨_, place, attributes, _, hemits, hspreads⟩ := hp
    obtain ⟨hn, hns⟩ := List.forall_mem_cons.mp hnames
    rw [List.flatMap_cons, List.flatMap_cons, hemits.eq_filter hn]
    exact List.rel_append hspreads (ih hns)

end TagsInOrder

theorem emittedSpreads_append (ns ms : List Node) :
    emittedSpreads (ns ++ ms) = emittedSpreads ns ++ emittedSpreads ms := by
  rw [emittedSpreads, List.filter_append, List.flatMap_append]
  rfl

theorem Piece.text_ne_nil {p : Piece} (h : p.isTag = true) : p.text ≠ [] := by
  cases p with
  | opening | alone => exact List.cons_ne_nil _ _
  | raw | closing => cases h

/-- Pieces without a text have no tags. -/
theorem TagsInOrder.eq_nil (h : TagsInOrder ps ns) (htext : piecesText ps = []) : ns = [] := by
  induction h with
  | nil => rfl
  | other _ _ ih => exact ih (List.append_eq_nil_iff.mp htext).2
  | tag hp _ _ => exact absurd (List.append_eq_nil_iff.mp htext).1 (Piece.text_ne_nil hp.1)

/-- The codes of a slot stand in front of its children, which are left out when they show nothing. -/
theorem TagsInOrder.slotBody {nested : List Json} {pieces : List Piece} (h : TagsInOrder ps ns)
    (hpieces : slotBody nested ps = .ok pieces) : TagsInOrder pieces ns := by
  obtain ⟨codes, _, hpieces⟩ := bind_eq_ok.mp hpieces
  obtain rfl := Except.ok.inj hpieces
  have hcodes : List.Forall₂ TagsInOrder (codes.map fun code => [Piece.raw code]) (codes.map fun _ => []) := by
    rw [List.forall₂_map_left_iff, List.forall₂_map_right_iff]
    exact List.forall₂_same.mpr fun code _ => .plain (List.forall_mem_singleton.mpr rfl)
  have hnone : (codes.map fun _ => ([] : List Node)).flatten = [] := by
    rw [List.flatten_eq_nil_iff]
    exact List.forall_mem_map.mpr fun _ _ => rfl
  split
  next hempty =>
    obtain rfl := h.eq_nil (List.isEmpty_iff.mp hempty)
    rw [← hnone]
    exact joinPieces _ hcodes
  next =>
    have hflat : (codes.map (fun _ => ([] : List Node)) ++ [ns]).flatten = ns := by
      rw [List.flatten_append, hnone, List.flatten_singleton, List.nil_append]
    have hjoined := joinPieces "\n" (List.rel_append hcodes (.cons h .nil))
    rwa [hflat] at hjoined

namespace CollectsSpreads

theorem skip (h : CollectsSpreads ns b) (hn : isElement n = false) : CollectsSpreads (n :: ns) b := by
  have hfilter : (n :: ns).filter isElement = ns.filter isElement := List.filter_cons_of_neg (by simp [hn])
  constructor
  · rw [hfilter]
    exact h.tags
  · rw [emittedSpreads, hfilter]
    exact h.collected

theorem plain {pieces : List Piece} (h : ∀ p ∈ pieces, p.isTag = false) : CollectsSpreads [] ⟨pieces, []⟩ :=
  ⟨.plain h, rfl⟩

theorem merged {ss ss' : List Text} (h : ss.eraseDups = (emittedSpreads ns).eraseDups)
    (h' : ss'.eraseDups = (emittedSpreads ms).eraseDups) :
    (mergeSpreads [ss, ss']).eraseDups = (emittedSpreads (ns ++ ms)).eraseDups := by
  rw [mergeSpreads, eraseDups_of_nodup (nodup_eraseDups _), emittedSpreads_append, List.flatten_cons,
    List.flatten_singleton]
  exact eraseDups_append_congr h h'

/-- Sibling blocks collect what their nodes spread. -/
theorem joinBlocks {sep : Text} {nodes : List Node} {blocks : List Block} {nss : List (List Node)}
    (h : joinBlocks sep nodes blocks = .ok b) (hblocks : List.Forall₂ CollectsSpreads nss blocks) :
    CollectsSpreads nss.flatten b := by
  unfold Markup.joinBlocks at h
  split at h
  next =>
    obtain rfl := Except.ok.inj h
    constructor
    · have htags : List.Forall₂ TagsInOrder (blocks.map Block.pieces) (nss.map (List.filter isElement)) := by
        rw [List.forall₂_map_left_iff, List.forall₂_map_right_iff]
        exact (hblocks.imp fun _ _ hb => hb.tags).flip
      rw [List.filter_flatten]
      exact .joinPieces sep htags
    · change (mergeSpreads (blocks.map Block.spreads)).eraseDups = _
      rw [mergeSpreads, eraseDups_of_nodup (nodup_eraseDups _)]
      clear h
      induction hblocks with
      | nil => rfl
      | cons hfirst _ ih =>
        rw [List.map_cons, List.flatten_cons, List.flatten_cons, emittedSpreads_append]
        exact eraseDups_append_congr hfirst.collected ih
  next => cases h

/-- A node that is no element, with an element of the renderer around what is below it. -/
theorem element {tag : Text} {attributes : List Attribute} {pieces : List Piece} {spreads : List Text}
    (h : CollectsSpreads ns ⟨pieces, spreads⟩) (hn : isElement n = false)
    (hattributes : ∀ a ∈ attributes, isSpreadName a.name = false) :
    CollectsSpreads (n :: ns) ⟨Markup.element tag attributes pieces, spreads⟩ :=
  CollectsSpreads.skip ⟨h.tags.element hattributes, h.collected⟩ hn

theorem void {place : Place} {emitted : Emitted} {p : Piece} (hn : isElement n = true) (hp : SpreadsOnTag n p)
    (hemitted : emitAll n place = .ok emitted) : CollectsSpreads [n] ⟨[p], emitted.spreads⟩ := by
  have hfilter : [n].filter isElement = [n] := List.filter_cons_of_pos hn
  constructor
  · rw [hfilter]
    exact .tag hp .nil
  · rw [spreads_of_emitAll hemitted, emittedSpreads, hfilter, List.flatMap_singleton]

/-- The sources of an element come before those of its children. -/
theorem elementBlock {place : Place} {emitted : Emitted} {selector : Text} (h : CollectsSpreads ns body)
    (hn : isElement n = true) (hemitted : emitAll n place = .ok emitted)
    (hp : SpreadsOnTag n (.opening selector (propertyAttributes n ++ emitted.attributes))) :
    CollectsSpreads (n :: ns) (elementBlock selector (propertyAttributes n) emitted body) := by
  have hvoid := void hn hp hemitted
  constructor
  · rw [List.filter_cons_of_pos hn]
    refine .tag hp (TagsInOrder.append_plain ?_ ?_)
    · have hslots : TagsInOrder (emitted.deferredSlots.map Piece.raw) [] :=
        .plain (List.forall_mem_map.mpr fun _ _ => rfl)
      exact hslots.append h.tags
    · exact List.forall_mem_cons.mpr ⟨rfl, List.forall_mem_singleton.mpr rfl⟩
  · exact merged hvoid.collected h.collected

/-- The sources of a conditional come before those of its else branch. -/
theorem withBranch {branch : Option Node} {positive : Block} {negative : Option Block}
    (h : CollectsSpreads ns positive)
    (hnegative : Option.Rel (fun m => CollectsSpreads (renderedNodes m)) branch negative) :
    CollectsSpreads (ns ++ renderedBranch branch) (withBranch positive negative) := by
  cases hnegative with
  | none =>
    rw [renderedBranch, List.append_nil]
    exact h
  | some hk =>
    constructor
    · rw [List.filter_append]
      refine h.tags.append (.other (List.forall_mem_nil _) ?_)
      refine TagsInOrder.element (.other (List.forall_mem_nil _) ?_) (by decide)
      exact hk.tags.append_plain (List.forall_mem_singleton.mpr rfl)
    · exact merged h.collected hk.collected

theorem interpolation {code : Text} {place : Place} (hn : isElement n = false) :
    CollectsSpreads [n] ⟨interpolation code place, []⟩ := by
  have hraw : ∀ text : Text, CollectsSpreads [n] ⟨[.raw text], []⟩ := fun text =>
    skip (plain (List.forall_mem_singleton.mpr rfl)) hn
  unfold Markup.interpolation
  extract_lets stripped member
  split
  next => exact element (plain (List.forall_mem_nil _)) hn (List.forall_mem_singleton.mpr rfl)
  next =>
    split
    next => exact hraw _
    next => exact hraw _

end CollectsSpreads

end Order

section Nodes

variable {n : Node} {b : Block}

theorem renderedChildren_eq (ns : List Node) : renderedChildren ns = (ns.map renderedNodes).flatten := by
  induction ns with
  | nil => rfl
  | cons n ns ih => rw [renderedChildren, ih, List.map_cons, List.flatten_cons]

theorem CollectsSpreads.joinsBlocks {sep : Text} {ns : List Node}
    (h : JoinsBlocks (fun m => CollectsSpreads (renderedNodes m)) sep ns b) :
    CollectsSpreads (renderedChildren ns) b := by
  obtain ⟨blocks, hblocks, h⟩ := h
  rw [renderedChildren_eq]
  exact .joinBlocks h (List.forall₂_map_left_iff.mpr hblocks)

/-- One node, when the blocks below it collect what their nodes spread. -/
theorem collectsSpreads_of_givesBlock {place : Place} {n : Node} {rule : BlockRule} {b : Block}
    (hrule : blockRule n = .ok rule)
    (h : GivesBlock (fun _ m => CollectsSpreads (renderedNodes m)) place n rule b) :
    CollectsSpreads (renderedNodes n) b := by
  have hother : rule ≠ .element → isElement n = false := isElement_of_other hrule
  rw [renderedNodes_of_rule hrule]
  cases h with
  | fragment hbody => exact (CollectsSpreads.joinsBlocks hbody).skip (hother (by simp))
  | slot hattributes _ hbody hpieces =>
    have hchildren := CollectsSpreads.joinsBlocks hbody
    refine .element ⟨hchildren.tags.slotBody hpieces, hchildren.collected⟩ (hother (by simp)) ?_
    rcases slotAttributes_eq_ok hattributes with rfl | ⟨text, rfl⟩
    · exact List.forall_mem_nil _
    · exact List.forall_mem_singleton.mpr rfl
  | childrenPlaceholder =>
    exact .element (.plain (List.forall_mem_nil _)) (hother (by simp)) (List.forall_mem_nil _)
  | literalText =>
    exact CollectsSpreads.skip (.plain (List.forall_mem_singleton.mpr rfl)) (hother (by simp))
  | interpolation => exact .interpolation (hother (by simp))
  | loop _ hbody =>
    exact (CollectsSpreads.joinsBlocks hbody).element (hother (by simp)) (List.forall_mem_singleton.mpr rfl)
  | conditional hbody hbranch =>
    change CollectsSpreads ((n :: renderedChildren n.children) ++ renderedBranch n.elseBranch) _
    refine .withBranch ?_ hbranch
    exact (CollectsSpreads.joinsBlocks hbody).element (hother (by simp)) (List.forall_mem_singleton.mpr rfl)
  | void hname hemitted hvoid =>
    rw [if_pos hvoid]
    exact .void (isElement_iff.mpr hrule) (spreadsOnTag (.void hrule hname hemitted) rfl hemitted rfl) hemitted
  | element hname hemitted hvoid hbody =>
    rw [hvoid, if_neg Bool.false_ne_true]
    exact (CollectsSpreads.joinsBlocks hbody).elementBlock (isElement_iff.mpr hrule) hemitted
      (spreadsOnTag (.element hrule hname hemitted) rfl hemitted rfl)

/-- Rendering a node collects what the elements below it and itself spread. -/
theorem collectsSpreads_renderNode {place : Place} {n : Node} {b : Block} (h : renderNode place n = .ok b) :
    CollectsSpreads (renderedNodes n) b :=
  renderNode_induction (motive := fun _ m => CollectsSpreads (renderedNodes m))
    (Q := fun _ => True) (fun _ => collectsSpreads_of_givesBlock) (fun _ _ => trivial) h

theorem CollectsSpreads.showsInOrder {ns : List Node} (h : CollectsSpreads ns b) : ShowsInOrder ns b :=
  ⟨h.tags, h.tags.named⟩

theorem CollectsSpreads.once {ns : List Node} (h : CollectsSpreads ns b) (hnodup : b.spreads.Nodup) :
    CollectsOnce ns b :=
  ⟨hnodup, (eraseDups_of_nodup hnodup).symm.trans h.collected⟩

theorem JoinsBlocks.nodup {R : Node → Block → Prop} {sep : Text} {ns : List Node}
    (h : JoinsBlocks R sep ns b) : b.spreads.Nodup := by
  obtain ⟨blocks, _, h⟩ := h
  unfold joinBlocks at h
  split at h
  next =>
    obtain rfl := Except.ok.inj h
    exact nodup_eraseDups _
  next => cases h

theorem nodup_withBranch {positive : Block} {negative : Option Block} (h : positive.spreads.Nodup) :
    (withBranch positive negative).spreads.Nodup := by
  cases negative with
  | none => exact h
  | some k => exact nodup_eraseDups _

theorem collectsSpreads_renderChildren {place : Place} {sep : Text} {ns : List Node}
    (h : renderChildren place sep ns = .ok b) : CollectsSpreads (renderedChildren ns) b :=
  .joinsBlocks ((joinsBlocks_of_renderChildren h).imp fun _ _ _ hk => collectsSpreads_renderNode hk)

/-- An element that stands alone, so that nothing is joined in it. -/
def isVoidElement (n : Node) : Bool := isElement n && Node.isVoid n

variable {place : Place}

theorem emittedSpreads_void (h : isVoidElement n = true) : emittedSpreads (renderedNodes n) = tagSpreads n := by
  obtain ⟨helement, hvoid⟩ := Bool.and_eq_true_iff.mp h
  have hrule := isElement_iff.mp helement
  have hnodes : renderedNodes n = [n] := by
    cases n
    simp only [renderedNodes, hrule, hvoid, if_true]
  rw [hnodes, emittedSpreads, List.filter_cons_of_pos helement, List.filter_nil, List.flatMap_singleton]

/-- Only a void element has sources that no join goes over. -/
theorem spreads_of_renderNode (h : renderNode place n = .ok b) :
    (isVoidElement n = true → b.spreads = tagSpreads n) ∧ (isVoidElement n = false → b.spreads.Nodup) := by
  obtain ⟨rule, hrule, hgives⟩ := exists_rule h
  -- a block that is joined from those of the children is none of a void element
  have hjoined : isVoidElement n = false → b.spreads.Nodup →
      (isVoidElement n = true → b.spreads = tagSpreads n) ∧ (isVoidElement n = false → b.spreads.Nodup) :=
    fun hnot hnodup => ⟨fun hvoid => absurd (hvoid.symm.trans hnot) (by decide), fun _ => hnodup⟩
  have hother : rule ≠ .element → isVoidElement n = false := fun hne => by
    rw [isVoidElement, isElement_of_other hrule hne, Bool.false_and]
  cases hgives with
  | fragment hbody => exact hjoined (hother (by simp)) hbody.nodup
  | slot _ _ hbody _ | loop _ hbody => exact hjoined (hother (by simp)) hbody.nodup
  | childrenPlaceholder | literalText | interpolation => exact hjoined (hother (by simp)) List.nodup_nil
  | conditional hbody _ => exact hjoined (hother (by simp)) (nodup_withBranch hbody.nodup)
  | void hname hemitted hvoid =>
    refine ⟨fun _ => spreads_of_emitAll hemitted, fun hnot => ?_⟩
    rw [isVoidElement, isElement_iff.mpr hrule, hvoid] at hnot
    cases hnot
  | element _ _ hvoid _ =>
    refine hjoined ?_ (nodup_eraseDups _)
    rw [isVoidElement, hvoid, Bool.and_false]

/-- What a rendered node spreads is collected once exactly when the node is no void element that spreads a
    source twice. -/
theorem collectsOnce_iff (h : renderNode place n = .ok b) :
    CollectsOnce (renderedNodes n) b ↔ (isVoidElement n = true → (tagSpreads n).Nodup) := by
  obtain ⟨hvoid, hjoined⟩ := spreads_of_renderNode h
  constructor
  · intro honce hn
    rw [← hvoid hn]
    exact honce.nodup
  · intro hapart
    refine (collectsSpreads_renderNode h).once ?_
    cases hn : isVoidElement n with
    | false => exact hjoined hn
    | true =>
      rw [hvoid hn]
      exact hapart hn

end Nodes

end ElementCompiler.Markup
