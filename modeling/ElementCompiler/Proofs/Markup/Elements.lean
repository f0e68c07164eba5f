import ElementCompiler.Proofs.Markup.Attributes
import ElementCompiler.Proofs.Markup.Closing

set_option autoImplicit false

/-!
The tags of rendered markup and the nodes that they come from. Every tag of a block is opened by one
of the nodes that are rendered in it, and every source that the block spreads is emitted by one.
-/

namespace ElementCompiler.Markup

open Attempt Text

/-- The names that the spread bindings of the node have for their keys. -/
def spreadTargets (n : Node) : List Text :=
  n.bindings.filterMap fun b =>
    b.2.bind fun x => if x.mode = .spread then some (bare b.1) else none

/-- The tag that the rule of a node opens. A conditional opens one for itself and one for its else
    branch. -/
inductive OpensTag : Node → Piece → Prop
  | element {n : Node} {place : Place} {emitted : Emitted} {name : Text} :
    blockRule n = .ok .element → Node.isVoid n = false → n.name = .str name →
    emitAll n place = .ok emitted →
    OpensTag n (.opening (elementSelector name) (propertyAttributes n ++ emitted.attributes))
  | void {n : Node} {place : Place} {emitted : Emitted} {name : Text} :
    blockRule n = .ok .element → Node.isVoid n = true → n.name = .str name →
    emitAll n place = .ok emitted →
    OpensTag n (.alone (elementSelector name) (propertyAttributes n ++ emitted.attributes))
  | slot {n : Node} {attributes : List Attribute} : blockRule n = .ok .slot →
    slotAttributes n = .ok attributes → OpensTag n (.opening "slot" attributes)
  | placeholder {n : Node} : blockRule n = .ok .childrenPlaceholder → OpensTag n (.opening "slot" [])
  | projection {n : Node} {code : Text} : blockRule n = .ok (.interpolation code) →
    OpensTag n (.opening "slot" [.of "select" ("[" ++ slotSelector (readMember code) ++ "]")])
  | loop {n : Node} {collection : Text} : blockRule n = .ok .loop →
    loopCollection n = .ok collection → OpensTag n (.opening templateTag
      [.of "repeat.for" (n.scope.forName.display ++ " of " ++ collection)])
  | condition {n : Node} : blockRule n = .ok .conditional →
    OpensTag n (.opening templateTag [.of "if.bind" (conditionText n)])
  | otherwise {n : Node} : blockRule n = .ok .conditional →
    OpensTag n (.opening templateTag [⟨"else", none⟩])

def Piece.isTag : Piece → Bool
  | .opening _ _ | .alone _ _ => true
  | .raw _ | .closing _ => false

def Piece.attributes : Piece → List Attribute
  | .opening _ attributes | .alone _ attributes => attributes
  | .raw _ | .closing _ => []

theorem Piece.isTag_of_mem_attributes {p : Piece} {a : Attribute} (h : a ∈ p.attributes) :
    p.isTag = true := by
  cases p with
  | opening | alone => rfl
  | raw | closing => cases h

/-- A block whose tags and spread sources come from the nodes. -/
structure Shows (ns : List Node) (b : Block) : Prop where
  tags : ∀ p ∈ b.pieces, p.isTag = true → ∃ m ∈ ns, OpensTag m p
  spreads : ∀ s ∈ b.spreads, ∃ m ∈ ns, ∃ place emitted, emitAll m place = .ok emitted ∧
    s ∈ emitted.spreads

section Shown

variable {ns ns' : List Node} {b body : Block} {n : Node}

theorem Shows.mono (h : Shows ns b) (hsub : ∀ m ∈ ns, m ∈ ns') : Shows ns' b where
  tags := fun p hp htag => by
    obtain ⟨m, hm, hopens⟩ := h.tags p hp htag
    exact ⟨m, hsub m hm, hopens⟩
  spreads := fun s hs => by
    obtain ⟨m, hm, hemits⟩ := h.spreads s hs
    exact ⟨m, hsub m hm, hemits⟩

theorem Shows.cons (h : Shows ns b) (n : Node) : Shows (n :: ns) b :=
  h.mono fun _ hm => List.mem_cons_of_mem n hm

theorem mem_joinPieces {sep : Text} {groups : List (List Piece)} {p : Piece}
    (h : p ∈ joinPieces sep groups) : p = .raw sep ∨ ∃ g ∈ groups, p ∈ g := by
  induction groups with
  | nil => exact absurd h List.not_mem_nil
  | cons g gs ih =>
    cases gs with
    | nil => exact .inr ⟨g, List.mem_cons_self, h⟩
    | cons g' gs =>
      change p ∈ g ++ .raw sep :: joinPieces sep (g' :: gs) at h
      rw [List.mem_append, List.mem_cons] at h
      rcases h with h | h | h
      · exact .inr ⟨g, List.mem_cons_self, h⟩
      · exact .inl h
      · refine (ih h).imp_right ?_
        rintro ⟨k, hk, hp⟩
        exact ⟨k, List.mem_cons_of_mem g hk, hp⟩

theorem shows_raws {pieces : List Piece} (h : ∀ p ∈ pieces, p.isTag = false) : Shows ns ⟨pieces, []⟩ where
  tags := fun p hp htag => absurd htag (by simp [h p hp])
  spreads := by rintro _ ⟨⟩

/-- Sibling blocks show what their nodes do. -/
theorem shows_joinsBlocks {sep : Text} {ns : List Node}
    (h : JoinsBlocks (fun m => Shows (renderedNodes m)) sep ns b) : Shows (renderedChildren ns) b := by
  obtain ⟨blocks, hblocks, h⟩ := h
  have hall : ∀ k ∈ blocks, Shows (renderedChildren ns) k := by
    clear h
    induction hblocks with
    | nil => exact List.forall_mem_nil _
    | cons hfirst _ ih =>
      rw [renderedChildren, List.forall_mem_cons]
      refine ⟨hfirst.mono fun m hm => List.mem_append_left _ hm, fun k hk => ?_⟩
      exact (ih k hk).mono fun m hm => List.mem_append_right _ hm
  unfold joinBlocks at h
  split at h
  next =>
    obtain rfl := Except.ok.inj h
    refine ⟨fun p hp htag => ?_, fun s hs => ?_⟩
    · rcases mem_joinPieces hp with rfl | ⟨g, hg, hp⟩
      · cases htag
      · obtain ⟨k, hk, rfl⟩ := List.mem_map.mp hg
        exact (hall k hk).tags p hp htag
    · rw [mergeSpreads, List.mem_eraseDups, List.mem_flatten] at hs
      obtain ⟨g, hg, hs⟩ := hs
      obtain ⟨k, hk, rfl⟩ := List.mem_map.mp hg
      exact (hall k hk).spreads s hs
  next => cases h

/-- An element that a node opens around a body. -/
theorem Shows.element {tag : Text} {attributes : List Attribute} {pieces : List Piece}
    {spreads : List Text} (h : Shows ns ⟨pieces, spreads⟩)
    (hopens : OpensTag n (.opening tag attributes)) :
    Shows (n :: ns) ⟨element tag attributes pieces, spreads⟩ where
  tags := fun p hp htag => by
    rcases List.mem_cons.mp hp with rfl | hp
    · exact ⟨n, List.mem_cons_self, hopens⟩
    · rcases List.mem_append.mp hp with hp | hp
      · exact (h.cons n).tags p hp htag
      · rw [List.mem_singleton.mp hp] at htag
        cases htag
  spreads := (h.cons n).spreads

theorem shows_interpolation {code : Text} {place : Place} (h : blockRule n = .ok (.interpolation code)) :
    Shows [n] ⟨interpolation code place, []⟩ := by
  unfold interpolation
  extract_lets stripped member
  split
  next => exact Shows.element (shows_raws (List.forall_mem_nil _)) (.projection h)
  next =>
    split
    all_goals exact shows_raws (List.forall_mem_singleton.mpr rfl)

theorem shows_slotBody {nested : List Json} {pieces : List Piece} (h : Shows ns body)
    (hpieces : slotBody nested body.pieces = .ok pieces) : Shows ns ⟨pieces, body.spreads⟩ := by
  obtain ⟨codes, _, hpieces⟩ := bind_eq_ok.mp hpieces
  obtain rfl := Except.ok.inj hpieces
  have hraw : ∀ g ∈ codes.map (fun code => [Piece.raw code]), ∀ p ∈ g, p.isTag = false := by
    intro g hg p hp
    obtain ⟨code, _, rfl⟩ := List.mem_map.mp hg
    rw [List.mem_singleton.mp hp]
    rfl
  refine ⟨fun p hp htag => ?_, h.spreads⟩
  rcases mem_joinPieces hp with rfl | ⟨g, hg, hp⟩
  · cases htag
  · split at hg
    next => exact absurd htag (by simp [hraw g hg p hp])
    next =>
      rcases List.mem_append.mp hg with hg | hg
      · exact absurd htag (by simp [hraw g hg p hp])
      · rw [List.mem_singleton.mp hg] at hp
        exact h.tags p hp htag

/-- An element around its deferred slots and its children. -/
theorem shows_elementBlock {place : Place} {name : Text} {emitted : Emitted} (h : Shows ns body)
    (hrule : blockRule n = .ok .element) (hvoid : Node.isVoid n = false) (hname : n.name = .str name)
    (hemitted : emitAll n place = .ok emitted) :
    Shows (n :: ns) (elementBlock (elementSelector name) (propertyAttributes n) emitted body) := by
  refine ⟨fun p hp htag => ?_, fun s hs => ?_⟩
  · simp only [elementBlock, List.mem_cons, List.mem_append, List.mem_map, List.not_mem_nil,
      or_false] at hp
    rcases hp with rfl | (⟨slot, _, rfl⟩ | hp) | rfl | rfl
    · exact ⟨n, List.mem_cons_self, .element hrule hvoid hname hemitted⟩
    · cases htag
    · exact (h.cons n).tags p hp htag
    · cases htag
    · cases htag
  · simp only [elementBlock, mergeSpreads, List.mem_eraseDups, List.mem_flatten, List.mem_cons,
      List.not_mem_nil, or_false] at hs
    obtain ⟨g, rfl | rfl, hs⟩ := hs
    · exact ⟨n, List.mem_cons_self, place, emitted, hemitted, hs⟩
    · exact (h.cons n).spreads s hs

/-- A conditional around its body, and its else branch after it. -/
theorem shows_withBranch {branch : Option Node} {positive : Block} {negative : Option Block}
    (hrule : blockRule n = .ok .conditional) (hpositive : Shows (n :: ns) positive)
    (hnegative : Option.Rel (fun m => Shows (renderedNodes m)) branch negative) :
    Shows (n :: (ns ++ renderedBranch branch)) (withBranch positive negative) := by
  have hfirst : Shows (n :: (ns ++ renderedBranch branch)) positive := hpositive.mono fun m hm => by
    rcases List.mem_cons.mp hm with rfl | hm
    · exact List.mem_cons_self
    · exact List.mem_cons_of_mem n (List.mem_append_left _ hm)
  cases hnegative with
  | none => exact hfirst
  | @some m k hk =>
    have hsecond : Shows (n :: (ns ++ renderedNodes m)) k := hk.mono fun m hm =>
      List.mem_cons_of_mem n (List.mem_append_right ns hm)
    refine ⟨fun p hp htag => ?_, fun s hs => ?_⟩
    · simp only [withBranch, element, List.mem_cons, List.mem_append, List.not_mem_nil,
        or_false] at hp
      rcases hp with hp | rfl | rfl | (rfl | hp | rfl) | rfl
      · exact hfirst.tags p hp htag
      · cases htag
      · exact ⟨n, List.mem_cons_self, .otherwise hrule⟩
      · cases htag
      · exact hsecond.tags p hp htag
      · cases htag
      · cases htag
    · simp only [withBranch, mergeSpreads, List.mem_eraseDups, List.mem_flatten, List.mem_cons,
        List.not_mem_nil, or_false] at hs
      obtain ⟨g, rfl | rfl, hs⟩ := hs
      · exact hfirst.spreads s hs
      · exact hsecond.spreads s hs

end Shown

section Nodes

/-- One node, when the blocks below it show what their nodes do. -/
theorem shows_of_givesBlock {place : Place} {n : Node} {rule : BlockRule} {b : Block}
    (hrule : blockRule n = .ok rule)
    (h : GivesBlock (fun _ m => Shows (renderedNodes m)) place n rule b) : Shows (renderedNodes n) b := by
  rw [renderedNodes_of_rule hrule]
  cases h with
  | fragment hbody => exact (shows_joinsBlocks hbody).cons n
  | slot hattributes _ hbody hpieces =>
    exact (shows_slotBody (shows_joinsBlocks hbody) hpieces).element (.slot hrule hattributes)
  | childrenPlaceholder => exact Shows.element (shows_raws (List.forall_mem_nil _)) (.placeholder hrule)
  | literalText => exact shows_raws (List.forall_mem_singleton.mpr rfl)
  | interpolation => exact shows_interpolation hrule
  | loop hcollection hbody => exact (shows_joinsBlocks hbody).element (.loop hrule hcollection)
  | conditional hbody hbranch =>
    exact shows_withBranch hrule ((shows_joinsBlocks hbody).element (.condition hrule)) hbranch
  | void hname hemitted hvoid =>
    refine ⟨List.forall_mem_singleton.mpr fun _ => ?_, fun s hs => ?_⟩
    · exact ⟨n, List.mem_cons_self, .void hrule hvoid hname hemitted⟩
    · exact ⟨n, List.mem_cons_self, place, _, hemitted, hs⟩
  | element hname hemitted hvoid hbody =>
    rw [hvoid, if_neg Bool.false_ne_true]
    exact shows_elementBlock (shows_joinsBlocks hbody) hrule hvoid hname hemitted

/-- Every tag of rendered nodes is opened by a node that is rendered among them. -/
theorem shows_renderChildren {place : Place} {sep : Text} {ns : List Node} {b : Block}
    (h : renderChildren place sep ns = .ok b) : Shows (renderedChildren ns) b :=
  shows_joinsBlocks (renderChildren_induction (motive := fun _ m => Shows (renderedNodes m))
    (Q := fun _ => True) (fun _ => shows_of_givesBlock) (fun _ _ => trivial) h)

mutual

theorem mem_subtree_of_rendered (n : Node) : ∀ m ∈ renderedNodes n, m ∈ n.subtree := by
  match n with
  | ⟨name, properties, bindings, children, scope, elseBranch, metadata⟩ =>
    have hchildren : ∀ m ∈ renderedChildren children, m ∈ Node.branchNodes elseBranch ++
        Node.subtrees children := fun m hm =>
      List.mem_append_right _ (mem_subtrees_of_rendered children m hm)
    have hbranch : ∀ m ∈ renderedBranch elseBranch, m ∈ Node.branchNodes elseBranch ++
        Node.subtrees children := fun m hm =>
      List.mem_append_left _ (mem_branchNodes_of_rendered elseBranch m hm)
    intro m hm
    rw [renderedNodes] at hm
    rw [Node.subtree]
    refine (List.mem_cons.mp hm).elim (fun h => h ▸ List.mem_cons_self) fun hm => ?_
    refine List.mem_cons_of_mem _ ?_
    split at hm
    next => exact hchildren m hm
    next => exact hchildren m hm
    next => exact hchildren m hm
    next => exact (List.mem_append.mp hm).elim (hchildren m) (hbranch m)
    next =>
      split at hm
      next => exact absurd hm List.not_mem_nil
      next => exact hchildren m hm
    next => exact absurd hm List.not_mem_nil

theorem mem_subtrees_of_rendered (ns : List Node) :
    ∀ m ∈ renderedChildren ns, m ∈ Node.subtrees ns := by
  match ns with
  | [] => exact fun m hm => hm
  | n :: rest =>
    intro m hm
    rw [renderedChildren, List.mem_append] at hm
    rw [Node.subtrees, List.mem_append]
    exact hm.imp (mem_subtree_of_rendered n m) (mem_subtrees_of_rendered rest m)

theorem mem_branchNodes_of_rendered (branch : Option Node) :
    ∀ m ∈ renderedBranch branch, m ∈ Node.branchNodes branch := by
  match branch with
  | none => exact fun m hm => hm
  | some n => exact mem_subtree_of_rendered n

end

end Nodes

section Spreads

variable {ns : List Node} {n : Node} {place : Place} {e : Emitted} {b : Block}

theorem spreads_emitAll (h : emitAll n place = .ok e) : ∀ s ∈ e.spreads, s ∈ spreadTargets n := by
  obtain ⟨es, hes, _, hspreads⟩ := emitAll_emits h
  intro s hs
  rw [hspreads] at hs
  obtain ⟨e', he', hs⟩ := List.mem_flatMap.mp hs
  obtain ⟨bound, hbound, x, hx, hemits⟩ := exists_left hes e' he'
  obtain ⟨hmode, rfl⟩ := hemits.spreads s hs
  exact List.mem_filterMap.mpr ⟨bound, hbound, by rw [hx]; exact if_pos hmode⟩

theorem Shows.spreadTargets (h : Shows ns b) : ∀ s ∈ b.spreads, ∃ m ∈ ns, s ∈ spreadTargets m := by
  intro s hs
  obtain ⟨m, hm, place, emitted, hemitted, hs⟩ := h.spreads s hs
  exact ⟨m, hm, spreads_emitAll hemitted s hs⟩

end Spreads

end ElementCompiler.Markup
