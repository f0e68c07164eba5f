import ElementCompiler.Proofs.Markup.Callables
import ElementCompiler.Proofs.Markup.LoopIndexes

set_option autoImplicit false

/-!
The loops around a node. A place knows the index names of all loops around it, so the token stands for
the index of any of them and not for that of the innermost one alone.
-/

namespace ElementCompiler.Markup

open Attempt Text

/-- A node that is rendered with the root, at the place where it is, and the loops around it, from the
    innermost one out. -/
inductive StandsInLoops (place : Place) (root : Node) : List Node → Place → Node → Prop
  | root : StandsInLoops place root [] place root
  | body {loops : List Node} {outer : Place} {n m : Node} : StandsInLoops place root loops outer n →
    blockRule n = .ok .loop → m ∈ n.children →
    StandsInLoops place root (n :: loops) (loopPlace n.scope outer) m
  | inside {loops : List Node} {outer inner : Place} {n m : Node} :
    StandsInLoops place root loops outer n → blockRule n ≠ .ok .loop → Renders outer n inner m →
    StandsInLoops place root loops inner m

/-- The loop has an index of the name. -/
def NamesIndex (name : Text) (n : Node) : Prop := n.scope.indexName = .str name ∧ name ≠ []

/-- From the inside out, the name is the index of a loop before it is the variable of another one. -/
def ReachesIndex (loops : List Node) (name : Text) : Prop :=
  ∃ near n far, loops = near ++ n :: far ∧ NamesIndex name n ∧
    ∀ l ∈ near, l.scope.forName ≠ .str name

/-- The block of a text that shows the token. -/
def tokenBlock : Block := ⟨[.raw ("$\x7b" ++ indexToken ++ "\x7d")], []⟩

/-- A text or a default attribute of the node that shows the token, by the code that it is to show:
    beside a `checked` binding the raw code. -/
inductive ShowsToken (place : Place) (n : Node) : Text → Prop
  | text {code : Text} : blockRule n = .ok (.interpolation code) →
    renderNode place n = .ok tokenBlock → ShowsToken place n code
  | bound {key code : Text} {x : Binding} : (key, some x) ∈ n.bindings →
    BindingRule.of key x.mode = .plain → isChecked n key = false → x.code = .str code →
    emitAttribute key x n place = .ok (.single (key ++ ".bind") indexToken) → ShowsToken place n code
  | checked {key code : Text} {x : Binding} : (key, some x) ∈ n.bindings →
    BindingRule.of key x.mode = .plain → isChecked n key = true → x.rawCode.orElse x.code = .str code →
    emitAttribute key x n place = .ok (.single (key ++ ".bind") indexToken) → ShowsToken place n code

section Loops

variable {place inner place' : Place} {root n m : Node} {loops : List Node} {name : Text}

theorem StandsIn.snoc (h : StandsIn place root inner n) (hrenders : Renders inner n place' m) :
    StandsIn place root place' m := by
  induction h with
  | self => exact .step hrenders (.self _ _)
  | step hfirst _ ih => exact .step hfirst (ih hrenders)

theorem StandsInLoops.standsIn (h : StandsInLoops place root loops place' m) :
    StandsIn place root place' m := by
  induction h with
  | root => exact .self place root
  | body _ hloop hm ih => exact ih.snoc (.loop hloop hm)
  | inside _ _ hrenders ih => exact ih.snoc hrenders

/-- One step down from the root. -/
theorem Renders.standsInLoops (h : Renders place root place' m) :
    ∃ loops, StandsInLoops place root loops place' m := by
  by_cases hloop : blockRule root = .ok .loop
  · cases h with
    | loop _ hm => exact ⟨[root], .body .root hloop hm⟩
    | _ hrule => exact absurd (hloop.symm.trans hrule) (by simp)
  · exact ⟨[], .inside .root hloop h⟩

theorem StandsInLoops.lift (h : StandsInLoops inner n loops place' m)
    (hrenders : Renders place root inner n) : ∃ loops', StandsInLoops place root loops' place' m := by
  induction h with
  | root => exact hrenders.standsInLoops
  | body _ hloop hm ih =>
    obtain ⟨loops', hstands⟩ := ih
    exact ⟨_ :: loops', .body hstands hloop hm⟩
  | inside _ hloop hinner ih =>
    obtain ⟨loops', hstands⟩ := ih
    exact ⟨loops', .inside hstands hloop hinner⟩

theorem StandsIn.exists_loops (h : StandsIn place root place' m) :
    ∃ loops, StandsInLoops place root loops place' m := by
  induction h with
  | self => exact ⟨[], .root⟩
  | step hfirst _ ih =>
    obtain ⟨loops, hloops⟩ := ih
    exact hloops.lift hfirst

theorem mem_loopPlace_iff {scope : Scope} :
    name ∈ (loopPlace scope place).indexNames ↔
      name ∈ place.indexNames ∨ scope.indexName = .str name ∧ name ≠ [] := by
  constructor
  · intro h
    unfold loopPlace at h
    split at h
    next index hindex =>
      change name ∈ ((place.inside .loop).withIndex index).indexNames at h
      unfold Place.withIndex at h
      split at h
      next => exact .inl h
      next hnew =>
        rcases List.mem_append.mp h with h | h
        · exact .inl h
        · obtain rfl := List.mem_singleton.mp h
          exact .inr ⟨hindex, fun hempty => hnew (by rw [hempty]; rfl)⟩
    next => exact .inl h
  · rintro (h | ⟨hindex, hne⟩)
    · exact mem_loopPlace h
    · exact mem_loopPlace_self hne hindex

/-- Only a loop adds to the names that are known. -/
theorem Renders.indexNames_eq (h : Renders place n inner m) (hloop : blockRule n ≠ .ok .loop) :
    inner.indexNames = place.indexNames := by
  cases h with
  | loop hrule => exact absurd hrule hloop
  | _ => rfl

/-- The names that are known where a node stands: those from around the root, and the indexes of the
    loops around it. -/
theorem StandsInLoops.mem_indexNames (h : StandsInLoops place root loops place' m) :
    name ∈ place'.indexNames ↔ name ∈ place.indexNames ∨ ∃ n ∈ loops, NamesIndex name n := by
  induction h with
  | root => simp
  | body _ _ _ ih =>
    rw [mem_loopPlace_iff, ih, List.exists_mem_cons_iff, or_assoc, or_comm (a := ∃ n ∈ _, _)]
    exact Iff.rfl
  | inside _ hloop hrenders ih => rw [hrenders.indexNames_eq hloop, ih]

theorem ReachesIndex.exists_loop (h : ReachesIndex loops name) : ∃ n ∈ loops, NamesIndex name n := by
  obtain ⟨near, n, far, rfl, hn, _⟩ := h
  exact ⟨n, List.mem_append_right near List.mem_cons_self, hn⟩

end Loops

section Token

variable {place : Place} {n : Node} {key shown code : Text} {x : Binding}

theorem eq_indexToken_of_indentRest (h : indentRest 2 code = indexToken) : code = indexToken :=
  IsIndexName.of_shown ⟨by decide, by decide, by decide⟩ h

theorem eq_indexToken_of_encodeQuotes (h : encodeQuotes code = indexToken) : code = indexToken := by
  have hquote : CodePoint.char '&' ∉ encodeQuotes code := by
    rw [h]
    decide
  exact (encodeQuotes_of_notMem hquote).symm.trans h

theorem interpolation_eq_token (h : interpolation code place = tokenBlock.pieces) :
    code = indexToken ∨ trim code ∈ place.indexNames := by
  unfold interpolation at h
  simp only at h
  split at h
  next => cases h
  split at h
  next hindex => exact .inr (List.contains_iff_mem.mp hindex)
  next =>
    obtain ⟨hsame, _⟩ := List.cons.inj h
    exact .inl (List.append_cancel_left (List.append_cancel_right (Piece.raw.inj hsame)))

theorem single_inj {name value value' : Text} (h : Emitted.single name value = .single name value') :
    value = value' := by
  obtain ⟨hsame, _⟩ := List.cons.inj (Emitted.mk.inj h).1
  exact Option.some.inj (Attribute.mk.inj hsame).2

/-- Whatever shows the token has a known index for its code, or the token itself. -/
theorem ShowsToken.eq_or_mem (h : ShowsToken place n code) :
    code = indexToken ∨ trim code ∈ place.indexNames := by
  cases h with
  | text hrule hrendered =>
    rw [renderNode_of_rule hrule] at hrendered
    exact interpolation_eq_token (Block.mk.inj (Except.ok.inj hrendered)).1
  | bound _ _ hchecked hcode hemitted =>
    obtain ⟨code', hcode', hvalue⟩ := emitAttribute_unchecked hemitted hchecked
    obtain rfl := Json.str.inj (hcode'.symm.trans hcode)
    have hvalue := single_inj hvalue
    split at hvalue
    next hindex => exact .inr (List.contains_iff_mem.mp hindex)
    next => exact .inl (eq_indexToken_of_indentRest hvalue.symm)
  | checked _ _ hchecked hcode hemitted =>
    obtain ⟨code', hcode', hvalue⟩ := emitAttribute_checked hemitted hchecked
    obtain rfl := Json.str.inj (hcode'.symm.trans hcode)
    exact .inl (eq_indexToken_of_encodeQuotes (single_inj hvalue).symm)

theorem showsToken_text (hrule : blockRule n = .ok (.interpolation code))
    (hslot : isSlotKey (readMember code) = false) (hindex : trim code ∈ place.indexNames) :
    ShowsToken place n code := by
  refine .text hrule ?_
  rw [renderNode_of_rule hrule, renderBy, interpolation_index rfl hslot hindex]
  rfl

end Token

/-- What a rendered node says about the loops around it: it shows the token only for the index of one
    of them, for that of the innermost one when the others have no index of their own, and for every
    index that it reaches. -/
structure TellsLoops (b : Block) (loops : List Node) (place : Place) (m : Node) : Prop where
  named : ∀ code, ShowsToken place m code →
    code = indexToken ∨ ∃ n ∈ loops, NamesIndex (trim code) n
  innermost : ∀ n far code, loops = n :: far →
    (∀ l ∈ far, ∀ other, NamesIndex other l → NamesIndex other n) → ShowsToken place m code →
    code = indexToken ∨ NamesIndex (trim code) n
  text : ∀ code, blockRule m = .ok (.interpolation code) → isSlotKey (readMember code) = false →
    ReachesIndex loops (trim code) → ShowsToken place m code ∧ tokenBlock.pieces <:+: b.pieces
  defaultAttribute : ∀ key x code, blockRule m = .ok .element → (key, some x) ∈ m.bindings →
    BindingRule.of key x.mode = .plain → isChecked m key = false → x.code = .str code →
    ReachesIndex loops (trim code) →
    ∃ p ∈ b.pieces, Writes place m p ∧ Attribute.of (key ++ ".bind") indexToken ∈ p.attributes

/-- Wherever a node is rendered there are loops around it, and a text or default attribute of the node
    that shows the token has the index of one of these loops for its code, or the token itself. The
    token does not say which loop it is: an index further out is shown by the same token, unless no
    loop further out has an index of another name. -/
theorem token_names_enclosing_loop {place : Place} {root : Node} {b : Block}
    (hplace : place.indexNames = []) (hb : renderNode place root = .ok b) :
    (∀ place' m, StandsIn place root place' m → ∃ loops, StandsInLoops place root loops place' m) ∧
      ∀ loops place' m, StandsInLoops place root loops place' m → TellsLoops b loops place' m := by
  refine ⟨fun place' m hstands => hstands.exists_loops, fun loops place' m hstands => ?_⟩
  have hknown : ∀ name, name ∈ place'.indexNames ↔ ∃ n ∈ loops, NamesIndex name n := by
    intro name
    rw [hstands.mem_indexNames, hplace]
    exact or_iff_right List.not_mem_nil
  have hreached : ∀ name, ReachesIndex loops name → name ∈ place'.indexNames := fun name h =>
    (hknown name).mpr h.exists_loop
  have hnamed : ∀ code, ShowsToken place' m code →
      code = indexToken ∨ ∃ n ∈ loops, NamesIndex (trim code) n := fun code h =>
    h.eq_or_mem.imp_right (hknown (trim code)).mp
  obtain ⟨k, hk, hwithin⟩ := hstands.standsIn.within hb
  constructor
  case named => exact hnamed
  case innermost =>
    rintro n far code rfl hfar hshows
    refine (hnamed code hshows).imp_right ?_
    rintro ⟨l, hl, hindex⟩
    rcases List.mem_cons.mp hl with rfl | hl
    · exact hindex
    · exact hfar l hl _ hindex
  case text =>
    intro code hrule hslot hreaches
    have hindex := hreached (trim code) hreaches
    have hshown := renderNode_of_rule hrule place'
    rw [renderBy, interpolation_index rfl hslot hindex] at hshown
    obtain rfl := Except.ok.inj (hk.symm.trans hshown)
    exact ⟨showsToken_text hrule hslot hindex, hwithin (by decide)⟩
  case defaultAttribute =>
    intro key x code hrule hx hplain hchecked hcode hreaches
    obtain ⟨p, hp, emitted, hemitted, hwrites, hattributes⟩ := exists_written_tag hrule hk
    have hmem : Attribute.of (key ++ ".bind") indexToken ∈ p.attributes := by
      rw [hattributes]
      exact List.mem_append_right _
        (index_mem_emitted hemitted hx hplain hchecked hcode (hreached (trim code) hreaches))
    exact ⟨p, (hwithin (text_ne_nil_of_tag hp hmem)).subset hp, hwrites, hmem⟩

def shownText (code : Text) : Node :=
  ⟨.str "Text", [], [(textKey, some (.ofCode (.str code) .normal))], [], .empty, none, []⟩

def loopOver (collection item index : Text) (children : List Node) : Node :=
  ⟨.str "For", [], [("each", some (.ofCode (.str collection) .normal))], children,
    { forName := .str item, indexName := .str index, collectionName := .null }, none, []⟩

/-- The cells of one row, each with both indexes. -/
def gridRow : Node := loopOver "row" "cell" "j" [shownText "i", shownText "j"]

def grid : Node := loopOver "rows" "row" "i" [gridRow]

def gridBlock : Block :=
  ⟨[.opening "template" [.of "repeat.for" "row of rows"],
    .opening "template" [.of "repeat.for" "cell of row"], .raw "${$index}", .raw "\n",
    .raw "${$index}", .closing "template", .closing "template"], []⟩

theorem standsInLoops_grid (code : Text) (h : shownText code ∈ gridRow.children) :
    StandsInLoops .start grid [gridRow, grid] ⟨.loop, ["i", "j"], []⟩ (shownText code) :=
  .body (.body .root rfl List.mem_cons_self) rfl h

theorem token_names_enclosing_loop_grid :
    renderNode .start grid = .ok gridBlock ∧
      ShowsToken ⟨.loop, ["i", "j"], []⟩ (shownText "j") "j" ∧
      tokenBlock.pieces <:+: gridBlock.pieces ∧ ∃ n ∈ [gridRow, grid], NamesIndex "i" n := by
  have hb : renderNode .start grid = .ok gridBlock := rfl
  obtain ⟨-, htells⟩ := token_names_enclosing_loop rfl hb
  have hj := htells _ _ _ (standsInLoops_grid "j" (.tail _ (.head _)))
  have hi := htells _ _ _ (standsInLoops_grid "i" (.head _))
  obtain ⟨hshows, hmem⟩ := hj.text "j" rfl (by decide) ⟨[], gridRow, [grid], rfl, ⟨rfl, by decide⟩, by simp⟩
  have houter := hi.named "i" (showsToken_text rfl (by decide) (by decide))
  exact ⟨hb, hshows, hmem, houter.resolve_left (by decide)⟩

/-- In nested loops the outer index is shown by the token of the inner loop. -/
theorem outer_index_shown_by_token :
    StandsInLoops .start grid [gridRow, grid] ⟨.loop, ["i", "j"], []⟩ (shownText "i") ∧
      ShowsToken ⟨.loop, ["i", "j"], []⟩ (shownText "i") "i" ∧ ofString "i" ≠ indexToken ∧
      NamesIndex "i" grid ∧ ¬ NamesIndex "i" gridRow ∧ renderNode .start grid = .ok gridBlock :=
  ⟨standsInLoops_grid "i" (.head _), showsToken_text rfl (by decide) (by decide), by decide,
    ⟨rfl, by decide⟩, fun h => absurd (Json.str.inj h.1) (by decide), rfl⟩

end ElementCompiler.Markup
