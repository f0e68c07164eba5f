import ElementCompiler.Proofs.Markup.IndexTokens
import ElementCompiler.Proofs.Markup.Standing
import ElementCompiler.Proofs.Text.Indent

set_option autoImplicit false

/-!
The index of a loop in its body. Interpolations and default attributes whose code is the index show
the token. What still shows the name is written where no index is looked for: class and mapped
attributes, attributes beside a `checked` binding, conditions, spreads and literal properties.
-/

namespace ElementCompiler.Markup

open Attempt Text

/-- A name that is one line without blanks around it. -/
structure IsIndexName (name : Text) : Prop where
  given : name ≠ []
  trimmed : trim name = name
  oneLine : CodePoint.char '\n' ∉ name

/-- The attribute binds the name, or interpolates it as a class. -/
def LeavesName (name : Text) (a : Attribute) : Prop :=
  (∃ key, a = .of (key ++ ".bind") name) ∨ a = .of "class" ("$\x7b" ++ name ++ "\x7d")

/-- The attributes of a node that no index is looked for in. -/
inductive SkipsIndex (n : Node) : Attribute → Prop
  | property {a : Attribute} : a ∈ propertyAttributes n → SkipsIndex n a
  | condition : blockRule n = .ok .conditional → SkipsIndex n (.of "if.bind" (conditionText n))
  | spread {key : Text} {x : Binding} (suffix : Text) : (key, some x) ∈ n.bindings →
    x.mode = .spread →
    SkipsIndex n (.of ("spreadProps" ++ suffix ++ ".bind") (encodeQuotes (bare key)))
  | classes {key : Text} {x : Binding} : (key, some x) ∈ n.bindings →
    BindingRule.of key x.mode = .classes →
    SkipsIndex n (.of "class" ("$\x7b" ++ x.code.display ++ "\x7d"))
  | mapped {key target code : Text} {x : Binding} : (key, some x) ∈ n.bindings →
    BindingRule.of key x.mode = .mapped target → x.code = .str code →
    SkipsIndex n (.of (target ++ ".bind") (indentRest 2 code))
  | checked {key code : Text} {x : Binding} : (key, some x) ∈ n.bindings →
    BindingRule.of key x.mode = .plain → isChecked n key = true →
    x.rawCode.orElse x.code = .str code →
    SkipsIndex n (.of (key ++ ".bind") (encodeQuotes code))

section Names

variable {name : Text} {a : Attribute} {place : Place}

/-- Names of attributes that bind, and the name of the class attribute, by their last character. -/
theorem LeavesName.last (h : LeavesName name a) :
    a.name.getLast? = some (.char 'd') ∨ a.name.getLast? = some (.char 's') := by
  rcases h with ⟨key, rfl⟩ | rfl
  · exact .inl (List.getLast?_append_of_ne_nil key (by decide))
  · exact .inr rfl

theorem LeavesName.value_eq {key value : Text} (h : LeavesName name (.of (key ++ ".bind") value)) :
    value = name := by
  rcases h with ⟨key', hsame⟩ | hsame
  · exact Option.some.inj (Attribute.mk.inj hsame).2
  · have hbind : (key ++ ofString ".bind").getLast? = (ofString ".bind").getLast? :=
      List.getLast?_append_of_ne_nil key (by decide)
    have hclass := congrArg List.getLast? (Attribute.mk.inj hsame).1
    exact absurd (hbind.symm.trans hclass) (by decide)

theorem newline_mem_indentRest {width : Nat} {s : Text} (h : CodePoint.char '\n' ∈ s) :
    CodePoint.char '\n' ∈ indentRest width s := by
  induction s with
  | nil => cases h
  | cons c cs ih =>
    rw [indentRest_cons, List.mem_cons, List.mem_append]
    exact (List.mem_cons.mp h).imp_right fun h => .inr (ih h)

theorem IsIndexName.of_shown (h : IsIndexName name) {code : Text} (hcode : indentRest 2 code = name) :
    code = name := by
  have hline : CodePoint.char '\n' ∉ code := fun hmem =>
    h.oneLine (hcode ▸ newline_mem_indentRest hmem)
  have hsame : indentRest 2 (code ++ []) = code ++ indentRest 2 [] := indentRest_append hline []
  simp only [List.append_nil, indentRest] at hsame
  rw [← hsame, hcode]

theorem mem_loopPlace_self {scope : Scope} (h : name ≠ []) (hindex : scope.indexName = .str name) :
    name ∈ (loopPlace scope place).indexNames := by
  unfold loopPlace
  rw [hindex]
  change name ∈ ((place.inside .loop).withIndex name).indexNames
  unfold Place.withIndex
  split
  next hknown =>
    rw [Bool.or_eq_true] at hknown
    exact hknown.elim (fun hempty => absurd (List.isEmpty_iff.mp hempty) h) List.contains_iff_mem.mp
  next => exact List.mem_append_right _ List.mem_cons_self

end Names

section Emission

variable {n : Node} {place : Place} {key code name : Text} {b : Binding} {a : Attribute} {e : Emitted}

theorem emitAttribute_unchecked (h : emitAttribute key b n place = .ok e)
    (hchecked : isChecked n key = false) : ∃ code, b.code = .str code ∧
      e = .single (key ++ ".bind")
        (if place.indexNames.contains (trim code) then indexToken else indentRest 2 code) := by
  have hgives : GivesEmitted n place [] key b .plain e := givesEmitted_attribute h
  cases hgives with
  | checked hyes _ => exact absurd (hyes.symm.trans hchecked) (by decide)
  | index _ hcode hindex => exact ⟨_, hcode, by rw [if_pos (List.contains_iff_mem.mpr hindex)]⟩
  | plain _ hcode hindex => exact ⟨_, hcode, by rw [if_neg (mt List.contains_iff_mem.mp hindex)]⟩

theorem emitAttribute_checked (h : emitAttribute key b n place = .ok e)
    (hchecked : isChecked n key = true) : ∃ code, b.rawCode.orElse b.code = .str code ∧
      e = .single (key ++ ".bind") (encodeQuotes code) := by
  have hgives : GivesEmitted n place [] key b .plain e := givesEmitted_attribute h
  cases hgives with
  | checked _ hcode => exact ⟨_, hcode, rfl⟩
  | index hno | plain hno => exact absurd (hno.symm.trans hchecked) (by decide)

theorem index_mem_emitted (h : emitAll n place = .ok e) (hb : (key, some b) ∈ n.bindings)
    (hrule : BindingRule.of key b.mode = .plain) (hchecked : isChecked n key = false)
    (hcode : b.code = .str code) (hindex : trim code ∈ place.indexNames) :
    Attribute.of (key ++ ".bind") indexToken ∈ e.attributes := by
  obtain ⟨sources, es, hes, rfl⟩ := emitAll_eq_ok h
  obtain ⟨e, he, x, hx, hemits⟩ := exists_right hes _ hb
  obtain rfl := Option.some.inj hx
  rw [concat_attributes, List.mem_flatMap]
  cases givesEmitted_of_rule hrule hemits with
  | checked hyes _ => exact absurd (hyes.symm.trans hchecked) (by decide)
  | index => exact ⟨_, he, List.mem_cons_self⟩
  | plain _ hcode' hno =>
    obtain rfl := Json.str.inj (hcode'.symm.trans hcode)
    exact absurd hindex hno

/-- An attribute that still shows an index name is emitted by a rule that looks for none. -/
theorem skipsIndex_of_emitted (h : emitAll n place = .ok e) (ha : a ∈ e.attributes)
    (hname : IsIndexName name) (htoken : name ≠ indexToken) (hknown : name ∈ place.indexNames)
    (hleaves : LeavesName name a) : SkipsIndex n a := by
  obtain ⟨sources, es, hes, rfl⟩ := emitAll_eq_ok h
  rw [concat_attributes] at ha
  obtain ⟨e, he, ha⟩ := List.mem_flatMap.mp ha
  obtain ⟨⟨key, b⟩, hb, x, rfl, hemits⟩ := exists_left hes e he
  -- only default attributes are looked up; events and refs are told apart by the names they get
  have hlast := hleaves.last
  by_cases hrule : BindingRule.of key x.mode = .plain
  · cases givesEmitted_of_rule hrule hemits with
    | checked hchecked hcode =>
      obtain rfl := List.mem_singleton.mp ha
      exact .checked hb hrule hchecked hcode
    | index =>
      obtain rfl := List.mem_singleton.mp ha
      exact absurd hleaves.value_eq (Ne.symm htoken)
    | plain _ _ hindex =>
      obtain rfl := List.mem_singleton.mp ha
      obtain rfl := hname.of_shown hleaves.value_eq
      rw [hname.trimmed] at hindex
      exact absurd hknown hindex
  · cases (emitsBy_emitBinding hemits).attributes a ha with
    | spread suffix hmode _ => exact .spread suffix hb hmode
    | event =>
      have hdelegate : (eventName key n ++ ofString ".delegate").getLast? =
          (ofString ".delegate").getLast? := List.getLast?_append_of_ne_nil _ (by decide)
      change (eventName key n ++ ofString ".delegate").getLast? = _ ∨
        (eventName key n ++ ofString ".delegate").getLast? = _ at hlast
      rw [hdelegate] at hlast
      exact absurd hlast (by decide)
    | classes hclasses => exact .classes hb hclasses
    | ref =>
      change (ofString "ref").getLast? = _ ∨ (ofString "ref").getLast? = _ at hlast
      exact absurd hlast (by decide)
    | mapped hmapped hcode => exact .mapped hb hmapped hcode
    | checked hplain => exact absurd hplain hrule
    | index hplain => exact absurd hplain hrule
    | plain hplain => exact absurd hplain hrule

end Emission

section Bodies

variable {n m c : Node} {place place' : Place} {b : Block} {name code : Text} {p : Piece} {a : Attribute}

theorem interpolation_index (htrim : trim code = name) (hslot : isSlotKey (readMember code) = false)
    (hknown : name ∈ place.indexNames) :
    interpolation code place = [.raw ("$\x7b" ++ indexToken ++ "\x7d")] := by
  unfold readMember at hslot
  unfold interpolation
  rw [htrim] at hslot ⊢
  simp only
  rw [if_neg (ne_true_of_eq_false hslot), if_pos (List.contains_iff_mem.mpr hknown)]

theorem raw_notMem_interpolation (hname : IsIndexName name) (htoken : name ≠ indexToken)
    (hknown : name ∈ place.indexNames) :
    Piece.raw ("$\x7b" ++ name ++ "\x7d") ∉ interpolation code place := by
  have hsame : ∀ t : Text, Piece.raw ("$\x7b" ++ name ++ "\x7d") ∈
      [Piece.raw ("$\x7b" ++ t ++ "\x7d")] → name = t := fun t ht =>
    List.append_cancel_left (List.append_cancel_right (Piece.raw.inj (List.mem_singleton.mp ht)))
  unfold interpolation
  intro hmem
  simp only at hmem
  split at hmem
  next => simp [element] at hmem
  split at hmem
  next => exact htoken (hsame _ hmem)
  next hindex =>
    obtain rfl := hsame _ hmem
    rw [hname.trimmed] at hindex
    exact hindex (List.contains_iff_mem.mpr hknown)

theorem name_of_mem_interpolation (hp : p ∈ interpolation code place) (ha : a ∈ p.attributes) :
    a.name = ofString "select" := by
  unfold interpolation at hp
  simp only at hp
  split at hp
  next =>
    simp only [element, List.nil_append, List.mem_cons, List.not_mem_nil, or_false] at hp
    rcases hp with rfl | rfl
    · rw [List.mem_singleton.mp ha]
      rfl
    · cases ha
  split at hp
  all_goals
    rw [List.mem_singleton.mp hp] at ha
    cases ha

/-- Within a loop, every node but the loop itself knows the index. -/
theorem StandsIn.below_loop (hloop : blockRule n = .ok .loop) (h : StandsIn place n place' m) :
    (place' = place ∧ m = n) ∨ ∃ c ∈ n.children, StandsIn (loopPlace n.scope place) c place' m := by
  cases h with
  | self => exact .inl ⟨rfl, rfl⟩
  | step hfirst hrest =>
    cases hfirst with
    | loop _ hc => exact .inr ⟨_, hc, hrest⟩
    | _ hrule => exact absurd (hloop.symm.trans hrule) (by simp)

theorem mem_interpolation_of_writes (h : Writes place m p)
    (hrule : blockRule m = .ok (.interpolation code)) : p ∈ interpolation code place := by
  cases h with
  | interpolation hsame hp =>
    obtain rfl := BlockRule.interpolation.inj (Except.ok.inj (hsame.symm.trans hrule))
    exact hp
  | _ hother => exact absurd (hother.symm.trans hrule) (by simp)

/-- A tag that still shows an index name is written by a node that shows it unlooked for. -/
theorem skipsIndex_of_written (hname : IsIndexName name) (htoken : name ≠ indexToken)
    (hknown : name ∈ place.indexNames) (hwrites : Writes place m p) (ha : a ∈ p.attributes)
    (hleaves : LeavesName name a) : SkipsIndex m a := by
  have hlast := hleaves.last
  cases hwrites with
  | condition hrule =>
    obtain rfl := List.mem_singleton.mp ha
    exact .condition hrule
  | element _ _ hemitted | void _ _ hemitted =>
    rcases List.mem_append.mp ha with ha | ha
    · exact .property ha
    · exact skipsIndex_of_emitted hemitted ha hname htoken hknown hleaves
  | interpolation _ hp =>
    rw [name_of_mem_interpolation hp ha] at hlast
    exact absurd hlast (by decide)
  | slot _ hattributes =>
    rcases slotAttributes_eq_ok hattributes with rfl | ⟨text, rfl⟩
    · cases ha
    · obtain rfl := List.mem_singleton.mp ha
      change (ofString "name").getLast? = _ ∨ (ofString "name").getLast? = _ at hlast
      exact absurd hlast (by decide)
  | loop =>
    obtain rfl := List.mem_singleton.mp ha
    change (ofString "repeat.for").getLast? = _ ∨ (ofString "repeat.for").getLast? = _ at hlast
    exact absurd hlast (by decide)
  | otherwise =>
    obtain rfl := List.mem_singleton.mp ha
    exact absurd hlast (by decide)
  | _ => cases ha

theorem exists_written_tag {k : Block} (hrule : blockRule m = .ok .element)
    (hk : renderNode place m = .ok k) : ∃ p ∈ k.pieces, ∃ emitted, emitAll m place = .ok emitted ∧
      Writes place m p ∧ p.attributes = propertyAttributes m ++ emitted.attributes := by
  cases givesBlock_of_rule hrule hk with
  | void htag hemitted _ =>
    exact ⟨_, List.mem_singleton_self _, _, hemitted, .void hrule htag hemitted, rfl⟩
  | element htag hemitted _ _ =>
    exact ⟨_, List.mem_cons_self, _, hemitted, .element hrule htag hemitted, rfl⟩

theorem text_ne_nil_of_tag {k : Block} (hp : p ∈ k.pieces) (ha : a ∈ p.attributes) : k.text ≠ [] := by
  intro hnil
  obtain ⟨before, after, heq⟩ := List.append_of_mem hp
  unfold Block.text at hnil
  rw [heq, piecesText_append, piecesText] at hnil
  obtain ⟨_, hnil⟩ := List.append_eq_nil_iff.mp hnil
  obtain ⟨hnil, _⟩ := List.append_eq_nil_iff.mp hnil
  cases p with
  | opening | alone => cases hnil
  | raw | closing => cases ha

end Bodies

/-- In the body of a loop, nested loops included, an interpolation or default attribute whose code is
    the index shows the token. Whatever still interpolates the name is no interpolation of a node, and
    whatever still binds it is a class, mapped or spread attribute, one beside a `checked` binding, a
    condition or a literal property. -/
theorem loop_index_shown {place : Place} {n : Node} {b : Block} {name : Text}
    (hloop : blockRule n = .ok .loop) (hindex : n.scope.indexName = .str name)
    (hname : IsIndexName name) (htoken : name ≠ indexToken) (hb : renderNode place n = .ok b) :
    (∀ c ∈ n.children, ∀ place' m, StandsIn (loopPlace n.scope place) c place' m →
      (∀ code, blockRule m = .ok (.interpolation code) → trim code = name →
        isSlotKey (readMember code) = false →
        renderNode place' m = .ok ⟨[.raw ("$\x7b" ++ indexToken ++ "\x7d")], []⟩ ∧
          [.raw ("$\x7b" ++ indexToken ++ "\x7d")] <:+: b.pieces) ∧
      (∀ key x code, blockRule m = .ok .element → (key, some x) ∈ m.bindings →
        BindingRule.of key x.mode = .plain → isChecked m key = false → x.code = .str code →
        trim code = name → ∃ p ∈ b.pieces, Writes place' m p ∧
          Attribute.of (key ++ ".bind") indexToken ∈ p.attributes)) ∧
    (.raw ("$\x7b" ++ name ++ "\x7d") ∈ b.pieces → ∃ place' m, StandsIn place n place' m ∧
      Writes place' m (.raw ("$\x7b" ++ name ++ "\x7d")) ∧
        ∀ code, blockRule m ≠ .ok (.interpolation code)) ∧
    ∀ p ∈ b.pieces, ∀ a ∈ p.attributes, LeavesName name a → ∃ place' m,
      StandsIn place n place' m ∧ Writes place' m p ∧ SkipsIndex m a := by
  have hknown : ∀ {c place' m}, StandsIn (loopPlace n.scope place) c place' m →
      name ∈ place'.indexNames := fun hstands =>
    hstands.indexNames (mem_loopPlace_self hname.given hindex)
  have hself : ∀ {p}, Writes place n p → ∃ collection, p = .opening templateTag [loopHead n collection] := by
    intro p hwrites
    cases hwrites with
    | loop => exact ⟨_, rfl⟩
    | _ hrule => exact absurd (hloop.symm.trans hrule) (by simp)
  refine ⟨fun c hc place' m hstands => ⟨?_, ?_⟩, ?_, ?_⟩
  · intro code hrule htrim hslot
    obtain ⟨k, hk, hwithin⟩ := (StandsIn.step (.loop hloop hc) hstands).within hb
    have hshown := renderNode_of_rule hrule place'
    rw [renderBy, interpolation_index htrim hslot (hknown hstands)] at hshown
    obtain rfl := Except.ok.inj (hk.symm.trans hshown)
    exact ⟨hshown, hwithin (by decide)⟩
  · intro key x code hrule hx hplain hchecked hcode htrim
    obtain ⟨k, hk, hwithin⟩ := (StandsIn.step (.loop hloop hc) hstands).within hb
    obtain ⟨p, hp, emitted, hemitted, hwrites, hattributes⟩ := exists_written_tag hrule hk
    have hmem : Attribute.of (key ++ ".bind") indexToken ∈ p.attributes := by
      rw [hattributes]
      exact List.mem_append_right _
        (index_mem_emitted hemitted hx hplain hchecked hcode (htrim ▸ hknown hstands))
    exact ⟨p, (hwithin (text_ne_nil_of_tag hp hmem)).subset hp, hwrites, hmem⟩
  · intro hp
    obtain (hbreak | ⟨tag, htag⟩) | ⟨place', m, hstands, hwrites⟩ := traced_renderNode hb _ hp
    · have hhead : some (CodePoint.char '$') = some (.char '\n') :=
        congrArg List.head? (Piece.raw.inj hbreak)
      exact absurd hhead (by decide)
    · cases htag
    refine ⟨place', m, hstands, hwrites, fun code hrule => ?_⟩
    rcases hstands.below_loop hloop with ⟨rfl, rfl⟩ | ⟨c, hc, hbelow⟩
    · exact absurd (hloop.symm.trans hrule) (by simp)
    · exact raw_notMem_interpolation hname htoken (hknown hbelow) (mem_interpolation_of_writes hwrites hrule)
  · intro p hp a ha hleaves
    obtain (rfl | ⟨tag, rfl⟩) | ⟨place', m, hstands, hwrites⟩ := traced_renderNode hb p hp
    · cases ha
    · cases ha
    refine ⟨place', m, hstands, hwrites, ?_⟩
    rcases hstands.below_loop hloop with ⟨rfl, rfl⟩ | ⟨c, hc, hbelow⟩
    · obtain ⟨collection, rfl⟩ := hself hwrites
      obtain rfl := List.mem_singleton.mp ha
      have hlast : (ofString "repeat.for").getLast? = some (.char 'd') ∨
        (ofString "repeat.for").getLast? = some (.char 's') := hleaves.last
      exact absurd hlast (by decide)
    · exact skipsIndex_of_written hname htoken (hknown hbelow) hwrites ha hleaves

/-- A list item under one binding, with the index for its text, in a loop. -/
def numberedItem (key : Text) : Node :=
  ⟨.str "li", [], [(key, some (.ofCode (.str "i") .normal))],
    [⟨.str "Text", [], [(textKey, some (.ofCode (.str "i") .normal))], [], .empty, none, []⟩],
    .empty, none, []⟩

def numberedList (key : Text) : Node :=
  ⟨.str "For", [], [("each", some (.ofCode (.str "items") .normal))], [numberedItem key],
    { forName := .str "item", indexName := .str "i", collectionName := .null }, none, []⟩

def numberedBlock (shown : Attribute) : Block :=
  ⟨[.opening "template" [.of "repeat.for" "item of items"], .opening "li" [shown],
    .raw "$\x7b$index\x7d", .raw "\n", .closing "li", .closing "template"], []⟩

theorem isIndexName_i : IsIndexName (ofString "i") := ⟨by decide, by decide, by decide⟩

theorem loop_index_shown_numbered :
    renderNode .start (numberedList "data-index") =
        .ok (numberedBlock (.of "data-index.bind" "$index")) ∧
      ∃ p ∈ (numberedBlock (.of "data-index.bind" "$index")).pieces,
        Attribute.of "data-index.bind" "$index" ∈ p.attributes := by
  have hb : renderNode .start (numberedList "data-index") =
    .ok (numberedBlock (.of "data-index.bind" "$index")) := rfl
  obtain ⟨hbody, -, -⟩ := loop_index_shown rfl rfl isIndexName_i (by decide) hb
  obtain ⟨-, hbound⟩ := hbody (numberedItem "data-index") List.mem_cons_self _ _ (.self _ _)
  obtain ⟨p, hp, -, ha⟩ := hbound "data-index" (.ofCode (.str "i") .normal) "i" rfl
    List.mem_cons_self (by decide) (by decide) rfl (by decide)
  exact ⟨hb, p, hp, ha⟩

/-- A class or mapped attribute keeps the name of the index. -/
theorem class_keeps_index_name :
    renderNode .start (numberedList "class") = .ok (numberedBlock (.of "class" "$\x7bi\x7d")) ∧
      renderNode .start (numberedList "innerHTML") = .ok (numberedBlock (.of "innerHTML.bind" "i")) ∧
        LeavesName "i" (.of "class" "$\x7bi\x7d") ∧ LeavesName "i" (.of "innerHTML.bind" "i") :=
  ⟨rfl, rfl, .inr rfl, .inl ⟨"innerHTML", rfl⟩⟩

end ElementCompiler.Markup
