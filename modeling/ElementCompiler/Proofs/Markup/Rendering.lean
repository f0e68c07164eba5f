import ElementCompiler.Markup.Block
import ElementCompiler.Proofs.Component.Texts
import ElementCompiler.Proofs.Text.Trim

set_option autoImplicit false

/-!
Rendering rule by rule. The block of a node comes from the rule for it and the blocks of what is below
it; what every rule preserves holds of every rendered node. Trees whose snippets are texts and whose
loops have a collection are rendered: no rule asks more of a node than that.
-/

namespace ElementCompiler

open Attempt Text

namespace Node

variable {n m : Node} {ns : List Node}

/-- The node stands right below the other one, as a child or as its else branch. -/
def IsBelow (m n : Node) : Prop := m ∈ n.children ∨ n.elseBranch = some m

theorem mem_subtree_self (n : Node) : n ∈ n.subtree := by
  cases n
  rw [subtree]
  exact List.mem_cons_self

theorem mem_subtrees : m ∈ subtrees ns ↔ ∃ n ∈ ns, m ∈ n.subtree := by
  induction ns with
  | nil => simp [subtrees]
  | cons n ns ih => rw [subtrees, List.mem_append, ih, List.exists_mem_cons_iff]

theorem IsBelow.subtree_subset (h : m.IsBelow n) : m.subtree ⊆ n.subtree := by
  intro k hk
  cases n with
  | mk name properties bindings children scope elseBranch metadata =>
    rw [subtree]
    refine List.mem_cons_of_mem _ (List.mem_append.mpr ?_)
    rcases h with hm | hm
    · exact .inr (mem_subtrees.mpr ⟨m, hm, hk⟩)
    · obtain rfl : elseBranch = some m := hm
      exact .inl hk

theorem IsBelow.sizeOf_lt (h : m.IsBelow n) : sizeOf m < sizeOf n := by
  cases n with
  | mk name properties bindings children scope elseBranch metadata =>
    rw [mk.sizeOf_spec]
    rcases h with hm | hm
    · have hlt : sizeOf m < sizeOf children := List.sizeOf_lt_of_mem hm
      omega
    · obtain rfl : elseBranch = some m := hm
      rw [Option.some.sizeOf_spec]
      omega

theorem induction_below {motive : Node → Prop}
    (step : ∀ n, (∀ m : Node, m.IsBelow n → motive m) → motive n) (n : Node) : motive n :=
  step n fun m _ => induction_below step m
termination_by sizeOf n
decreasing_by exact IsBelow.sizeOf_lt ‹_›

end Node

namespace Markup

section Blocks

variable {place : Place} {n : Node} {ns : List Node} {b : Block} {rule : BlockRule} {sep : Text}

/-- The block of a conditional before its else branch. -/
def positiveBlock (n : Node) (body : Block) : Block :=
  ⟨element templateTag [.of "if.bind" (conditionText n)] body.pieces, body.spreads⟩

def loopHead (n : Node) (collection : Text) : Attribute :=
  .of "repeat.for" (n.scope.forName.display ++ " of " ++ collection)

/-- The block that a rule gives for the node. -/
def renderBy (place : Place) (n : Node) : BlockRule → Attempt Block
  | .fragment => renderChildren (place.inside .fragment) "\n" n.children
  | .slot => do
    let attributes ← slotAttributes n
    let nested ← nestedCodes n.bindings
    let body ← renderChildren (place.inside .slot) "\n" n.children
    return ⟨element "slot" attributes (← slotBody nested body.pieces), body.spreads⟩
  | .childrenPlaceholder => return ⟨element "slot" [] [], []⟩
  | .literalText value => return ⟨[.raw value.display], []⟩
  | .interpolation code => return ⟨interpolation code place, []⟩
  | .loop => do
    let collection ← loopCollection n
    let body ← renderChildren (loopPlace n.scope place) "\n" n.children
    return ⟨element templateTag [loopHead n collection] body.pieces, body.spreads⟩
  | .conditional => do
    let body ← renderChildren (place.inside .conditional) "\n" n.children
    return withBranch (positiveBlock n body) (← renderBranch (place.inside .otherwise) n.elseBranch)
  | .element => do
    let name ← n.name.textOr .missingOperation
    let emitted ← emitAll n place
    if voidTags.contains name then
      return ⟨[.alone (elementSelector name) (propertyAttributes n ++ emitted.attributes)],
        emitted.spreads⟩
    else
      let body ← renderChildren (place.inside .children) "\n" n.children
      return elementBlock (elementSelector name) (propertyAttributes n) emitted body

theorem renderNode_eq_renderBy (place : Place) (n : Node) :
    renderNode place n = blockRule n >>= renderBy place n := by
  cases n
  rw [renderNode]
  refine bind_congr fun rule => ?_
  cases rule with
  | _ => simp only [renderBy, renderChildren, positiveBlock, loopHead, bind_assoc]

theorem renderNode_of_rule (h : blockRule n = .ok rule) (place : Place) :
    renderNode place n = renderBy place n rule := by
  rw [renderNode_eq_renderBy, h, ok_bind]

def Node.isVoid (n : Node) : Bool :=
  match n.name with
  | .str name => voidTags.contains name
  | _ => false

theorem isVoid_eq_of_name {name : Text} (h : n.name = .str name) :
    Node.isVoid n = voidTags.contains name := by
  unfold Node.isVoid
  rw [h]

/-- The node has this block at the place. -/
def HasBlock (place : Place) (n : Node) (b : Block) : Prop := renderNode place n = .ok b

/-- A block that sibling blocks are joined to, each related to its node. -/
def JoinsBlocks (R : Node → Block → Prop) (sep : Text) (ns : List Node) (b : Block) : Prop :=
  ∃ blocks, List.Forall₂ R ns blocks ∧ joinBlocks sep ns blocks = .ok b

/-- A block that the rule gives for the node, where the blocks of the nodes below it are related to
    them at their places. -/
inductive GivesBlock (R : Place → Node → Block → Prop) (place : Place) (n : Node) :
    BlockRule → Block → Prop
  | fragment {b : Block} : JoinsBlocks (R (place.inside .fragment)) "\n" n.children b →
    GivesBlock R place n .fragment b
  | slot {attributes : List Attribute} {nested : List Json} {body : Block} {pieces : List Piece} :
    slotAttributes n = .ok attributes → nestedCodes n.bindings = .ok nested →
    JoinsBlocks (R (place.inside .slot)) "\n" n.children body →
    slotBody nested body.pieces = .ok pieces →
    GivesBlock R place n .slot ⟨element "slot" attributes pieces, body.spreads⟩
  | childrenPlaceholder : GivesBlock R place n .childrenPlaceholder ⟨element "slot" [] [], []⟩
  | literalText {value : Json} : GivesBlock R place n (.literalText value) ⟨[.raw value.display], []⟩
  | interpolation {code : Text} :
    GivesBlock R place n (.interpolation code) ⟨interpolation code place, []⟩
  | loop {collection : Text} {body : Block} : loopCollection n = .ok collection →
    JoinsBlocks (R (loopPlace n.scope place)) "\n" n.children body →
    GivesBlock R place n .loop
      ⟨element templateTag [loopHead n collection] body.pieces, body.spreads⟩
  | conditional {body : Block} {negative : Option Block} :
    JoinsBlocks (R (place.inside .conditional)) "\n" n.children body →
    Option.Rel (R (place.inside .otherwise)) n.elseBranch negative →
    GivesBlock R place n .conditional (withBranch (positiveBlock n body) negative)
  | void {name : Text} {emitted : Emitted} : n.name = .str name → emitAll n place = .ok emitted →
    Node.isVoid n = true → GivesBlock R place n .element
      ⟨[.alone (elementSelector name) (propertyAttributes n ++ emitted.attributes)], emitted.spreads⟩
  | element {name : Text} {emitted : Emitted} {body : Block} : n.name = .str name →
    emitAll n place = .ok emitted → Node.isVoid n = false →
    JoinsBlocks (R (place.inside .children)) "\n" n.children body →
    GivesBlock R place n .element
      (elementBlock (elementSelector name) (propertyAttributes n) emitted body)

theorem forall₂_of_renderNodes {blocks : List Block} (h : renderNodes place ns = .ok blocks) :
    List.Forall₂ (HasBlock place) ns blocks := by
  induction ns generalizing blocks with
  | nil => exact Except.ok.inj h ▸ .nil
  | cons n ns ih =>
    obtain ⟨first, hfirst, h⟩ := bind_eq_ok.mp h
    obtain ⟨others, hothers, h⟩ := bind_eq_ok.mp h
    obtain rfl := Except.ok.inj h
    exact .cons hfirst (ih hothers)

theorem joinsBlocks_of_renderChildren (h : renderChildren place sep ns = .ok b) :
    JoinsBlocks (HasBlock place) sep ns b :=
  (bind_eq_ok.mp h).imp fun _ h => h.imp_left forall₂_of_renderNodes

theorem rel_of_renderBranch {branch : Option Node} {negative : Option Block}
    (h : renderBranch place branch = .ok negative) : Option.Rel (HasBlock place) branch negative := by
  cases branch with
  | none => exact Except.ok.inj h ▸ .none
  | some n =>
    obtain ⟨b, hb, h⟩ := bind_eq_ok.mp h
    exact Except.ok.inj h ▸ .some hb

theorem givesBlock_of_renderBy (h : renderBy place n rule = .ok b) :
    GivesBlock HasBlock place n rule b := by
  cases rule with
  | fragment => exact .fragment (joinsBlocks_of_renderChildren h)
  | slot =>
    obtain ⟨attributes, hattributes, h⟩ := bind_eq_ok.mp h
    obtain ⟨nested, hnested, h⟩ := bind_eq_ok.mp h
    obtain ⟨body, hbody, h⟩ := bind_eq_ok.mp h
    obtain ⟨pieces, hpieces, h⟩ := bind_eq_ok.mp h
    obtain rfl := Except.ok.inj h
    exact .slot hattributes hnested (joinsBlocks_of_renderChildren hbody) hpieces
  | childrenPlaceholder => exact Except.ok.inj h ▸ .childrenPlaceholder
  | literalText value => exact Except.ok.inj h ▸ .literalText
  | interpolation code => exact Except.ok.inj h ▸ .interpolation
  | loop =>
    obtain ⟨collection, hcollection, h⟩ := bind_eq_ok.mp h
    obtain ⟨body, hbody, h⟩ := bind_eq_ok.mp h
    obtain rfl := Except.ok.inj h
    exact .loop hcollection (joinsBlocks_of_renderChildren hbody)
  | conditional =>
    obtain ⟨body, hbody, h⟩ := bind_eq_ok.mp h
    obtain ⟨negative, hnegative, h⟩ := bind_eq_ok.mp h
    obtain rfl := Except.ok.inj h
    exact .conditional (joinsBlocks_of_renderChildren hbody) (rel_of_renderBranch hnegative)
  | element =>
    obtain ⟨name, hname, h⟩ := bind_eq_ok.mp h
    obtain ⟨emitted, hemitted, h⟩ := bind_eq_ok.mp h
    have hname := textOr_eq_ok hname
    split at h
    next hvoid =>
      obtain rfl := Except.ok.inj h
      exact .void hname hemitted ((isVoid_eq_of_name hname).trans hvoid)
    next hvoid =>
      obtain ⟨body, hbody, h⟩ := bind_eq_ok.mp h
      obtain rfl := Except.ok.inj h
      have hnotVoid := (isVoid_eq_of_name hname).trans (Bool.eq_false_iff.mpr hvoid)
      exact .element hname hemitted hnotVoid (joinsBlocks_of_renderChildren hbody)

theorem givesBlock_of_rule (hrule : blockRule n = .ok rule) (h : renderNode place n = .ok b) :
    GivesBlock HasBlock place n rule b := by
  rw [renderNode_of_rule hrule] at h
  exact givesBlock_of_renderBy h

theorem exists_rule (h : renderNode place n = .ok b) :
    ∃ rule, blockRule n = .ok rule ∧ GivesBlock HasBlock place n rule b := by
  rw [renderNode_eq_renderBy] at h
  obtain ⟨rule, hrule, h⟩ := bind_eq_ok.mp h
  exact ⟨rule, hrule, givesBlock_of_renderBy h⟩

end Blocks

section Induction

variable {R R' : Place → Node → Block → Prop} {place : Place} {n m : Node} {ns : List Node} {b : Block}
  {rule : BlockRule} {sep : Text}

theorem JoinsBlocks.imp {R R' : Node → Block → Prop} (h : JoinsBlocks R sep ns b)
    (himp : ∀ m ∈ ns, ∀ k, R m k → R' m k) : JoinsBlocks R' sep ns b := by
  obtain ⟨blocks, hblocks, h⟩ := h
  have hmem := (List.forall₂_and_left ns blocks).mpr ⟨fun _ hm => hm, hblocks⟩
  exact ⟨blocks, hmem.imp fun m k hmk => himp m hmk.1 k hmk.2, h⟩

theorem rel_imp {R R' : Node → Block → Prop} {branch : Option Node} {negative : Option Block}
    (h : Option.Rel R branch negative) (himp : ∀ m, branch = some m → ∀ k, R m k → R' m k) :
    Option.Rel R' branch negative := by
  cases h with
  | none => exact .none
  | some hk => exact .some (himp _ rfl _ hk)

theorem GivesBlock.imp (h : GivesBlock R place n rule b)
    (himp : ∀ inner m k, m.IsBelow n → R inner m k → R' inner m k) : GivesBlock R' place n rule b := by
  have hchildren : ∀ inner, ∀ m ∈ n.children, ∀ k, R inner m k → R' inner m k :=
    fun inner m hm k => himp inner m k (.inl hm)
  cases h with
  | fragment hbody => exact .fragment (hbody.imp (hchildren _))
  | slot hattributes hnested hbody hpieces =>
    exact .slot hattributes hnested (hbody.imp (hchildren _)) hpieces
  | childrenPlaceholder => exact .childrenPlaceholder
  | literalText => exact .literalText
  | interpolation => exact .interpolation
  | loop hcollection hbody => exact .loop hcollection (hbody.imp (hchildren _))
  | conditional hbody hbranch =>
    exact .conditional (hbody.imp (hchildren _))
      (rel_imp hbranch fun m hm k => himp _ m k (.inr hm))
  | void hname hemitted hvoid => exact .void hname hemitted hvoid
  | element hname hemitted hvoid hbody =>
    exact .element hname hemitted hvoid (hbody.imp (hchildren _))

/-- What every rule preserves holds of every node that is rendered. -/
theorem renderNode_induction {Q : Node → Prop} {motive : Place → Node → Block → Prop}
    (step : ∀ {place n rule b}, Q n → blockRule n = .ok rule → GivesBlock motive place n rule b →
      motive place n b)
    {place : Place} {n : Node} {b : Block} (hn : ∀ m ∈ n.subtree, Q m)
    (h : renderNode place n = .ok b) : motive place n b := by
  induction n using Node.induction_below generalizing place b with
  | step n ih =>
    obtain ⟨rule, hrule, hgives⟩ := exists_rule h
    refine step (hn n n.mem_subtree_self) hrule (hgives.imp fun inner m k hm hk => ?_)
    exact ih m hm (fun l hl => hn l (hm.subtree_subset hl)) hk

theorem renderChildren_induction {Q : Node → Prop} {motive : Place → Node → Block → Prop}
    (step : ∀ {place n rule b}, Q n → blockRule n = .ok rule → GivesBlock motive place n rule b →
      motive place n b)
    (hns : ∀ m ∈ Node.subtrees ns, Q m) (h : renderChildren place sep ns = .ok b) :
    JoinsBlocks (motive place) sep ns b :=
  (joinsBlocks_of_renderChildren h).imp fun m hm _ hk =>
    renderNode_induction step (fun l hl => hns l (Node.mem_subtrees.mpr ⟨m, hm, hl⟩)) hk

end Induction

/-- The node is text throughout, and as a loop it has a collection. -/
def IsRenderable (n : Node) : Prop := n.HasTexts ∧ (n.isLoop = true → n.Iterates)

section Attributes

variable {n : Node} {b : Binding}

theorem exists_suppressesEvents (hn : n.HasTexts) : ∃ r, suppressesEvents n = .ok r := by
  rw [suppressesEvents]
  split
  next => exact ⟨false, rfl⟩
  next j hj =>
    obtain ⟨k, hk⟩ := Entries.mem_of_get? hj
    obtain ⟨s, hs⟩ := hn.properties _ hk
    have hs : j = .str s := hs
    rw [hs]
    exact ⟨_, rfl⟩

theorem exists_eventArgument (hb : b.HasTexts) : ∃ s, eventArgument b.arguments = .ok s := by
  rcases hb.arguments with h | ⟨names, h⟩
  · exact ⟨"event", by rw [h]; rfl⟩
  · rw [h]
    cases names with
    | nil => exact ⟨"event", rfl⟩
    | cons name names => exact ⟨name, rfl⟩

theorem exists_emitEvent (hn : n.HasTexts) (hb : b.HasTexts) (key : Text) (place : Place) :
    ∃ e, emitEvent key b n place = .ok e := by
  refine exists_bind (exists_suppressesEvents hn) fun suppressed _ => ?_
  split
  next => exact ⟨_, rfl⟩
  next =>
    refine exists_bind (exists_eventArgument hb) fun argument _ => ?_
    obtain ⟨s, hs⟩ := hb.code
    rw [hs]
    exact exists_bind ⟨_, rfl⟩ fun value _ => ⟨_, rfl⟩

theorem exists_emitAttribute (hn : n.HasTexts) (hb : b.HasTexts) (key : Text) (place : Place) :
    ∃ e, emitAttribute key b n place = .ok e := by
  have htag : ∃ isTag, isHtmlTag n.name = .ok isTag := by
    obtain ⟨s, hs⟩ := hn.name
    exact ⟨_, by rw [hs]; rfl⟩
  have hvalue : (b.rawCode.orElse b.code).IsText := by
    rw [Json.orElse]
    split
    next hgiven => exact hb.rawCode.isText hgiven
    next => exact hb.code
  rw [emitAttribute]
  refine exists_bind htag fun isTag _ => ?_
  extract_lets emit
  have hemit : ∀ isElement, ∃ e, emit isElement = .ok e := by
    intro isElement
    unfold emit
    split
    next => exact exists_bind (hvalue.textOr _) fun value _ => ⟨_, rfl⟩
    next =>
      refine exists_bind (hb.code.textOr _) fun code _ => ?_
      split <;> exact ⟨_, rfl⟩
  split <;> exact hemit _

theorem exists_emitBinding (hn : n.HasTexts) (hb : b.HasTexts) (place : Place)
    (sources : List Text) (key : Text) : ∃ e, emitBinding n place sources key b = .ok e := by
  rw [emitBinding]
  split
  next => exact ⟨_, rfl⟩
  next => exact ⟨_, rfl⟩
  next => exact exists_emitEvent hn hb key place
  next => exact ⟨_, rfl⟩
  next => exact exists_bind (hb.code.textOr _) fun code _ => ⟨_, rfl⟩
  next => exact exists_bind (hb.code.textOr _) fun code _ => ⟨_, rfl⟩
  next => exact exists_bind (hb.code.textOr _) fun code _ => ⟨_, rfl⟩
  next => exact exists_emitAttribute hn hb key place

theorem exists_spreadSources {bs : Entries (Option Binding)}
    (hbs : ∀ b ∈ bs, ∃ x, b.2 = some x ∧ x.HasTexts) : ∃ sources, spreadSources bs = .ok sources := by
  induction bs with
  | nil => exact ⟨[], rfl⟩
  | cons b bs ih =>
    obtain ⟨key, b⟩ := b
    obtain ⟨⟨x, rfl, hx⟩, hrest⟩ := List.forall_mem_cons.mp hbs
    rw [spreadSources]
    split
    next =>
      exact exists_bind (hx.code.textOr _) fun code _ =>
        exists_bind (ih hrest) fun rest _ => ⟨_, rfl⟩
    next => exact ih hrest

theorem exists_emitBindings (hn : n.HasTexts) (place : Place) (sources : List Text)
    {bs : Entries (Option Binding)} (hbs : ∀ b ∈ bs, ∃ x, b.2 = some x ∧ x.HasTexts) :
    ∃ emitted, emitBindings n place sources bs = .ok emitted := by
  induction bs with
  | nil => exact ⟨[], rfl⟩
  | cons b bs ih =>
    obtain ⟨key, b⟩ := b
    obtain ⟨⟨x, rfl, hx⟩, hrest⟩ := List.forall_mem_cons.mp hbs
    exact exists_bind (exists_emitBinding hn hx place sources key) fun first _ =>
      exists_bind (ih hrest) fun rest _ => ⟨_, rfl⟩

theorem exists_emitAll (hn : n.HasTexts) (place : Place) : ∃ e, emitAll n place = .ok e :=
  exists_bind (exists_spreadSources hn.bindings) fun sources _ =>
    exists_bind (exists_emitBindings hn place sources hn.bindings) fun _ _ => ⟨_, rfl⟩

end Attributes

section Rules

variable {n : Node}

theorem exists_isChildrenPlaceholder (hn : n.HasTexts) : ∃ r, isChildrenPlaceholder n = .ok r := by
  rw [isChildrenPlaceholder]
  split
  next => exact ⟨false, rfl⟩
  next b hb => exact exists_bind ((hn.binding? hb).code.textOr _) fun code _ => ⟨_, rfl⟩

/-- What the rule for a node says about it. -/
def BlockRule.Suits (n : Node) : BlockRule → Prop
  | .literalText value => value.IsText
  | .loop => n.isLoop = true
  | _ => True

theorem exists_blockRule (hn : n.HasTexts) : ∃ r, blockRule n = .ok r ∧ r.Suits n := by
  obtain ⟨placeholder, hplaceholder⟩ := exists_isChildrenPlaceholder hn
  rw [blockRule]
  split
  next => exact ⟨_, rfl, trivial⟩
  next =>
    split
    next => exact ⟨_, rfl, trivial⟩
    next =>
      rw [hplaceholder, ok_bind]
      split
      next => exact ⟨_, rfl, trivial⟩
      next =>
        split
        next value hvalue =>
          obtain ⟨k, hk⟩ := Entries.mem_of_get? hvalue
          exact ⟨_, rfl, hn.properties _ hk⟩
        next =>
          split
          next => exact ⟨_, rfl, trivial⟩
          next =>
            split
            next hloop => exact ⟨_, rfl, hloop⟩
            next => split <;> exact ⟨_, rfl, trivial⟩

theorem canBeJoined_of_hasTexts (hn : n.HasTexts) : canBeJoined n = true := by
  obtain ⟨rule, hrule, hsuits⟩ := exists_blockRule hn
  rw [canBeJoined, hrule]
  cases rule with
  | literalText value =>
    obtain ⟨s, rfl⟩ : value.IsText := hsuits
    rfl
  | _ => rfl

theorem exists_joinBlocks {nodes : List Node} (hnodes : ∀ n ∈ nodes, n.HasTexts) (sep : Text)
    (blocks : List Block) : ∃ b, joinBlocks sep nodes blocks = .ok b := by
  rw [joinBlocks, if_pos (List.all_eq_true.mpr fun n hn => canBeJoined_of_hasTexts (hnodes n hn))]
  exact ⟨_, rfl⟩

theorem exists_slotAttributes (hn : n.HasTexts) : ∃ as, slotAttributes n = .ok as := by
  have hattributes : ∀ {name : Json}, name.IsText → ∃ as : List Attribute,
      (if name.isGiven then do
        return [.of "name" (slotSelector (← name.textOr .wrongKind))]
      else return [] : Attempt (List Attribute)) = .ok as := by
    intro name hname
    split
    next => exact exists_bind (hname.textOr _) fun text _ => ⟨_, rfl⟩
    next => exact ⟨[], rfl⟩
  rw [slotAttributes]
  split
  next b hb => exact hattributes (hn.binding? hb).code
  next =>
    refine hattributes ?_
    cases hname : Entries.get? n.properties (Text.ofString "name") with
    | none => exact ⟨[], rfl⟩
    | some value =>
      obtain ⟨k, hk⟩ := Entries.mem_of_get? hname
      exact hn.properties _ hk

theorem exists_nestedCodes {bs : Entries (Option Binding)}
    (hbs : ∀ b ∈ bs, ∃ x, b.2 = some x ∧ x.HasTexts) :
    ∃ codes, nestedCodes bs = .ok codes ∧ ∀ code ∈ codes, code.IsText := by
  induction bs with
  | nil => exact ⟨[], rfl, fun code hcode => absurd hcode List.not_mem_nil⟩
  | cons b bs ih =>
    obtain ⟨key, b⟩ := b
    obtain ⟨⟨x, rfl, hx⟩, hrest⟩ := List.forall_mem_cons.mp hbs
    obtain ⟨codes, hcodes, htexts⟩ := ih hrest
    rw [nestedCodes]
    split
    next => exact ⟨codes, hcodes, htexts⟩
    next =>
      rw [hcodes, ok_bind]
      split
      next => exact ⟨_, rfl, List.forall_mem_cons.mpr ⟨hx.code, htexts⟩⟩
      next => exact ⟨codes, rfl, htexts⟩

theorem exists_slotBody {nested : List Json} (hnested : ∀ code ∈ nested, code.IsText)
    (children : List Piece) : ∃ pieces, slotBody nested children = .ok pieces :=
  exists_bind (Json.mapM_textOr hnested _) fun _ _ => ⟨_, rfl⟩

theorem exists_loopCollection (hn : n.Iterates) : ∃ s, loopCollection n = .ok s := by
  obtain ⟨x, code, hx, hcode, hink⟩ := hn
  rw [loopCollection, hx]
  dsimp only
  rw [hcode, Json.textOr_str, ok_bind, if_neg]
  · exact ⟨code, rfl⟩
  · rw [isEmpty_trim, hink]
    exact Bool.false_ne_true

end Rules

section Nodes

variable {place : Place} {n : Node} {ns : List Node}

/-- One node, when what is below it is rendered. -/
theorem exists_renderBy {rule : BlockRule} (hn : IsRenderable n) (hsuits : rule.Suits n)
    (hchildren : ∀ inner, ∃ body, renderChildren inner "\n" n.children = .ok body)
    (hbranch : ∀ inner, ∃ negative, renderBranch inner n.elseBranch = .ok negative) :
    ∃ b, renderBy place n rule = .ok b := by
  obtain ⟨htexts, hloop⟩ := hn
  cases rule with
  | fragment => exact hchildren _
  | slot =>
    obtain ⟨nested, hnested, hcodes⟩ := exists_nestedCodes htexts.bindings
    refine exists_bind (exists_slotAttributes htexts) fun attributes _ => ?_
    rw [hnested, ok_bind]
    refine exists_bind (hchildren _) fun body _ => ?_
    exact exists_bind (exists_slotBody hcodes body.pieces) fun pieces _ => ⟨_, rfl⟩
  | childrenPlaceholder | literalText | interpolation => exact ⟨_, rfl⟩
  | loop =>
    refine exists_bind (exists_loopCollection (hloop hsuits)) fun collection _ => ?_
    exact exists_bind (hchildren _) fun body _ => ⟨_, rfl⟩
  | conditional =>
    refine exists_bind (hchildren _) fun body _ => ?_
    exact exists_bind (hbranch _) fun negative _ => ⟨_, rfl⟩
  | element =>
    refine exists_bind (htexts.name.textOr _) fun name _ => ?_
    refine exists_bind (exists_emitAll htexts place) fun emitted _ => ?_
    split
    next => exact ⟨_, rfl⟩
    next => exact exists_bind (hchildren _) fun body _ => ⟨_, rfl⟩

theorem exists_renderNodes (h : ∀ m ∈ ns, ∃ b, renderNode place m = .ok b) :
    ∃ blocks, renderNodes place ns = .ok blocks := by
  induction ns with
  | nil => exact ⟨[], rfl⟩
  | cons n ns ih =>
    obtain ⟨hn, hns⟩ := List.forall_mem_cons.mp h
    exact exists_bind hn fun first _ => exists_bind (ih hns) fun others _ => ⟨_, rfl⟩

theorem exists_joined (hns : ∀ m ∈ ns, m.HasTexts) (h : ∀ m ∈ ns, ∃ b, renderNode place m = .ok b)
    (sep : Text) : ∃ b, renderChildren place sep ns = .ok b :=
  exists_bind (exists_renderNodes h) fun blocks _ => exists_joinBlocks hns sep blocks

theorem exists_renderNode (place : Place) (n : Node) (h : ∀ m ∈ n.subtree, IsRenderable m) :
    ∃ b, renderNode place n = .ok b := by
  induction n using Node.induction_below generalizing place with
  | step n ih =>
    have hbelow : ∀ m : Node, m.IsBelow n → ∀ l ∈ m.subtree, IsRenderable l :=
      fun m hm l hl => h l (hm.subtree_subset hl)
    have htexts : ∀ m ∈ n.children, m.HasTexts := fun m hm => (hbelow m (.inl hm) m m.mem_subtree_self).1
    obtain ⟨rule, hrule, hsuits⟩ := exists_blockRule (h n n.mem_subtree_self).1
    rw [renderNode_of_rule hrule]
    refine exists_renderBy (h n n.mem_subtree_self) hsuits (fun inner => ?_) fun inner => ?_
    · exact exists_joined htexts (fun m hm => ih m (.inl hm) inner (hbelow m (.inl hm))) _
    · cases helse : n.elseBranch with
      | none => exact ⟨none, rfl⟩
      | some m => exact exists_bind (ih m (.inr helse) inner (hbelow m (.inr helse))) fun b _ => ⟨_, rfl⟩

theorem exists_renderChildren (place : Place) (sep : Text) (h : ∀ m ∈ Node.subtrees ns, IsRenderable m) :
    ∃ b, renderChildren place sep ns = .ok b := by
  have hbelow : ∀ n ∈ ns, ∀ m ∈ n.subtree, IsRenderable m :=
    fun n hn m hm => h m (Node.mem_subtrees.mpr ⟨n, hn, hm⟩)
  exact exists_joined (fun n hn => (hbelow n hn n n.mem_subtree_self).1)
    (fun n hn => exists_renderNode place n (hbelow n hn)) sep

end Nodes

end Markup
end ElementCompiler
