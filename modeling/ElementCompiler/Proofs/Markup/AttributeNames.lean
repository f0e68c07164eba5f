import ElementCompiler.Proofs.Distinct
import ElementCompiler.Proofs.Markup.Elements
import ElementCompiler.Proofs.Markup.Emission
import ElementCompiler.Proofs.Markup.Rules

set_option autoImplicit false

/-!
The names of the attributes on the tag of an element. A key that is no event is shown under a name of
its own, but two keys may name one event, and a property may have the name that a binding is shown
under. A reader that takes no account of case sees fewer names apart.
-/

namespace ElementCompiler.Markup

open Attempt Text

/-- The element keeps its events to itself. -/
def keepsEvents (n : Node) : Bool :=
  match suppressesEvents n with
  | .ok suppressed => suppressed
  | .error _ => false

/-- The name under which a binding that is no spread is shown on the tag, by its key. -/
def bindingName? (n : Node) (key : Text) : Option Text :=
  match BindingRule.of key .normal with
  | .event => if keepsEvents n then none else some (eventName key n ++ ".delegate")
  | .classes => some "class"
  | .ref => some "ref"
  | .mapped target => some (target ++ ".bind")
  | .plain => some (key ++ ".bind")
  | .spread | .internal | .slot => none

/-- The properties that are shown. -/
def shownKeys (n : Node) : List Text :=
  (Entries.keys n.properties).filter fun key => key != textKey && !isInternalKey key

/-- The names on the tag, properties first. -/
def tagNames (n : Node) : List Text :=
  shownKeys n ++ (Entries.keys n.bindings).filterMap (bindingName? n)

/-- The keys of events that are shown. -/
def eventKeys (n : Node) : List Text :=
  (Entries.keys n.bindings).filter fun key => BindingRule.of key .normal = .event && !keepsEvents n

/-- The keys that are shown with `.bind` behind them. -/
def boundKeys (n : Node) : List Text :=
  (Entries.keys n.bindings).filter fun key =>
    match BindingRule.of key .normal with
    | .mapped _ | .plain => true
    | _ => false

/-- A key that keeps its name is shown under it. -/
theorem rule_mapped {key target : Text} {mode : BindingMode}
    (h : BindingRule.of key mode = .mapped target) : target = key := by
  have hsame : ∀ e ∈ mappedKeys, e.2 = e.1 := by decide
  exact hsame _ (Entries.mem_of_get?_eq_some (get?_mappedKeys_of_mapped h))

section Names

variable {n : Node} {place : Place} {key name : Text} {b : Binding} {e : Emitted}

/-- A binding is shown once, or not at all, under the name of its key. -/
theorem names_emitBinding {sources : List Text} (hmode : b.mode ≠ .spread)
    (h : emitBinding n place sources key b = .ok e) :
    e.attributes.map Attribute.name = (bindingName? n key).toList := by
  have hnormal : b.mode = .normal := by
    cases hb : b.mode with
    | normal => rfl
    | spread => exact absurd hb hmode
  have hgives := givesEmitted_of_emitBinding h
  rw [hnormal] at hgives
  rw [bindingName?]
  generalize hrule : BindingRule.of key .normal = rule at hgives
  cases hgives with
  | spread => exact absurd (rule_spread hrule) (by decide)
  | suppressed hsuppressed => simp [keepsEvents, hsuppressed, Emitted.none]
  | event hsuppressed => simp [keepsEvents, hsuppressed, Emitted.single, Attribute.of]
  | internal | classes | ref | slot | mapped | checked | index | plain => rfl

theorem names_emitAll (hspread : ∀ b ∈ n.bindings, ∀ x, b.2 = some x → x.mode ≠ .spread)
    (h : emitAll n place = .ok e) :
    e.attributes.map Attribute.name = (Entries.keys n.bindings).filterMap (bindingName? n) := by
  obtain ⟨sources, es, hes, rfl⟩ := emitAll_eq_ok h
  clear h
  rw [concat_attributes]
  generalize n.bindings = bs at hes hspread
  induction hes with
  | nil => rfl
  | @cons b e bs es hfirst _ ih =>
    obtain ⟨x, hx, hemit⟩ := hfirst
    obtain ⟨hmode, hrest⟩ := List.forall_mem_cons.mp hspread
    rw [List.flatMap_cons, List.map_append, names_emitBinding (hmode x hx) hemit, ih hrest,
      Entries.keys, Entries.keys, List.map_cons, List.filterMap_cons]
    cases bindingName? n b.1 <;> rfl

theorem names_propertyAttributes : (propertyAttributes n).map Attribute.name = shownKeys n := by
  rw [propertyAttributes, shownKeys, Entries.keys, List.map_map, List.filter_map]
  rfl

/-- A key is shown as an event, with `.bind` behind it, or as itself. -/
theorem bindingName?_cases (hkey : key ∈ Entries.keys n.bindings) (h : bindingName? n key = some name) :
    key ∈ eventKeys n ∧ name = eventName key n ++ ".delegate" ∨
      key ∈ boundKeys n ∧ name = key ++ ".bind" ∨ (key = "class" ∨ key = "ref") ∧ name = key := by
  rw [bindingName?] at h
  simp only [eventKeys, boundKeys, List.mem_filter, hkey, true_and]
  cases hrule : BindingRule.of key .normal with
  | spread | internal | slot =>
    rw [hrule] at h
    cases h
  | event =>
    rw [hrule] at h
    simp only [Option.ite_none_left_eq_some, Option.some.injEq] at h
    obtain ⟨hkeeps, rfl⟩ := h
    exact .inl ⟨by simpa using hkeeps, rfl⟩
  | classes =>
    rw [hrule] at h
    obtain rfl := Option.some.inj h
    exact .inr (.inr ⟨.inl (rule_classes hrule), (rule_classes hrule).symm⟩)
  | ref =>
    rw [hrule] at h
    obtain rfl := Option.some.inj h
    exact .inr (.inr ⟨.inr (rule_ref hrule).1, (rule_ref hrule).1.symm⟩)
  | mapped target =>
    rw [hrule] at h
    obtain rfl := Option.some.inj h
    exact .inr (.inl ⟨rfl, by rw [rule_mapped hrule]⟩)
  | plain =>
    rw [hrule] at h
    obtain rfl := Option.some.inj h
    exact .inr (.inl ⟨rfl, rfl⟩)

theorem bindingName?_event (h : key ∈ eventKeys n) :
    bindingName? n key = some (eventName key n ++ ".delegate") := by
  obtain ⟨_, h⟩ := List.mem_filter.mp h
  simp only [Bool.and_eq_true, decide_eq_true_eq, Bool.not_eq_true'] at h
  rw [bindingName?, h.1]
  simp [h.2]

theorem bindingName?_bound (h : key ∈ boundKeys n) : bindingName? n key = some (key ++ ".bind") := by
  obtain ⟨_, h⟩ := List.mem_filter.mp h
  rw [bindingName?]
  split at h
  next target hrule => rw [hrule, rule_mapped hrule]
  next hrule => rw [hrule]
  next => cases h

theorem bindingName?_reserved (h : key = "class" ∨ key = "ref") : bindingName? n key = some key := by
  rcases h with rfl | rfl <;> rfl

end Names

/-- A way to read names that leaves the endings and the names of the framework as they are. -/
structure IsReading (read : Text → Text) : Prop where
  append : ∀ s t, read (s ++ t) = read s ++ read t
  fixed : ∀ s ∈ [ofString ".bind", ".delegate", "class", "ref"], read s = s

namespace IsReading

variable {read : Text → Text}

theorem bound (h : IsReading read) (s : Text) : read (s ++ ".bind") = read s ++ ".bind" := by
  rw [h.append, h.fixed ".bind" (by simp)]

theorem event (h : IsReading read) (s : Text) : read (s ++ ".delegate") = read s ++ ".delegate" := by
  rw [h.append, h.fixed ".delegate" (by simp)]

theorem reserved (h : IsReading read) {s : Text} (hs : s = "class" ∨ s = "ref") : read s = s :=
  h.fixed s (by rcases hs with rfl | rfl <;> simp)

end IsReading

/-- Letters of the alphabet in lower case, as names of attributes are compared. -/
def foldCase (s : Text) : Text :=
  s.map fun c =>
    match c with
    | .char c => .char c.toLower
    | .half n => .half n

theorem isReading_id : IsReading id := ⟨fun _ _ => rfl, fun _ _ => rfl⟩

theorem isReading_foldCase : IsReading foldCase := ⟨fun s t => List.map_append, by decide⟩

/-- No two keys are shown under names that read alike. -/
structure KeysApart (read : Text → Text) (n : Node) : Prop where
  properties : ∀ p ∈ shownKeys n, ∀ q ∈ shownKeys n, read p = read q → p = q
  bound : ∀ k ∈ boundKeys n, ∀ l ∈ boundKeys n, read k = read l → k = l
  events : ∀ k ∈ eventKeys n, ∀ l ∈ eventKeys n,
    read (eventName k n) = read (eventName l n) → k = l
  propertyBound : ∀ p ∈ shownKeys n, ∀ k ∈ boundKeys n, read p ≠ read k ++ ".bind"
  propertyEvent : ∀ p ∈ shownKeys n, ∀ k ∈ eventKeys n, read p ≠ read (eventName k n) ++ ".delegate"
  propertyReserved : ∀ p ∈ shownKeys n, ∀ k ∈ Entries.keys n.bindings, k = "class" ∨ k = "ref" →
    read p ≠ k

section Apart

variable {read : Text → Text} {n : Node}

/-- The names of events, of other keys and of the two kept names end differently. -/
theorem getLast?_read (hread : IsReading read) :
    (∀ s, (read (s ++ ".delegate")).getLast? = some (.char 'e')) ∧
      (∀ s, (read (s ++ ".bind")).getLast? = some (.char 'd')) ∧
      (read "class").getLast? = some (.char 's') ∧ (read "ref").getLast? = some (.char 'f') := by
  refine ⟨fun s => ?_, fun s => ?_, ?_, ?_⟩
  · rw [hread.event, List.getLast?_append]
    rfl
  · rw [hread.bound, List.getLast?_append]
    rfl
  · rw [hread.reserved (.inl rfl)]
    rfl
  · rw [hread.reserved (.inr rfl)]
    rfl

/-- Two bindings whose names read alike are the same one, if events and other keys are apart. -/
theorem same_binding (hread : IsReading read) (h : KeysApart read n) {k l : Text}
    (hk : k ∈ Entries.keys n.bindings) (hl : l ∈ Entries.keys n.bindings) {c : Text}
    (hkc : (bindingName? n k).map read = some c) (hlc : (bindingName? n l).map read = some c) :
    k = l := by
  obtain ⟨x, hx, rfl⟩ := Option.map_eq_some_iff.mp hkc
  obtain ⟨y, hy, hsame⟩ := Option.map_eq_some_iff.mp hlc
  obtain ⟨hdelegate, hbind, hclass, href⟩ := getLast?_read hread
  have hlast := congrArg List.getLast? hsame
  rcases bindingName?_cases hk hx with ⟨hk, rfl⟩ | ⟨hk, rfl⟩ | ⟨rfl | rfl, rfl⟩
  · rcases bindingName?_cases hl hy with ⟨hl, rfl⟩ | ⟨hl, rfl⟩ | ⟨rfl | rfl, rfl⟩
    · rw [hread.event, hread.event, List.append_left_inj] at hsame
      exact h.events k hk l hl hsame.symm
    all_goals simp [hdelegate, hbind, hclass, href] at hlast
  · rcases bindingName?_cases hl hy with ⟨hl, rfl⟩ | ⟨hl, rfl⟩ | ⟨rfl | rfl, rfl⟩
    · simp [hdelegate, hbind] at hlast
    · rw [hread.bound, hread.bound, List.append_left_inj] at hsame
      exact h.bound k hk l hl hsame.symm
    all_goals simp [hbind, hclass, href] at hlast
  · rcases bindingName?_cases hl hy with ⟨hl, rfl⟩ | ⟨hl, rfl⟩ | ⟨rfl | rfl, rfl⟩
    · simp [hdelegate, hclass] at hlast
    · simp [hbind, hclass] at hlast
    · rfl
    · simp [hclass, href] at hlast
  · rcases bindingName?_cases hl hy with ⟨hl, rfl⟩ | ⟨hl, rfl⟩ | ⟨rfl | rfl, rfl⟩
    · simp [hdelegate, href] at hlast
    · simp [hbind, href] at hlast
    · simp [hclass, href] at hlast
    · rfl

/-- The names on a tag read differently exactly when the keys are apart. -/
theorem nodup_read_tagNames (hread : IsReading read)
    (hproperties : (Entries.keys n.properties).Nodup) (hbindings : (Entries.keys n.bindings).Nodup) :
    ((tagNames n).map read).Nodup ↔ KeysApart read n := by
  have hshown : (shownKeys n).Nodup := hproperties.filter _
  rw [tagNames, List.map_append, List.map_filterMap, List.nodup_append,
    nodup_filterMap_iff hbindings, List.nodup_map_iff_inj_on hshown]
  have hname : ∀ {k x : Text}, k ∈ Entries.keys n.bindings → bindingName? n k = some x →
      read x ∈ (Entries.keys n.bindings).filterMap fun k => (bindingName? n k).map read :=
    fun hk hx => List.mem_filterMap.mpr ⟨_, hk, by rw [hx]; rfl⟩
  constructor
  · rintro ⟨hapart, hsame, hdisjoint⟩
    refine ⟨hapart, fun k hk l hl hkl => ?_, fun k hk l hl hkl => ?_, fun p hp k hk => ?_,
      fun p hp k hk => ?_, fun p hp k hk hreserved => ?_⟩
    · refine hsame k (List.mem_filter.mp hk).1 l (List.mem_filter.mp hl).1 (read k ++ ".bind") ?_ ?_
      · rw [bindingName?_bound hk, Option.map_some, hread.bound]
      · rw [bindingName?_bound hl, Option.map_some, hread.bound, hkl]
    · refine hsame k (List.mem_filter.mp hk).1 l (List.mem_filter.mp hl).1
        (read (eventName k n) ++ ".delegate") ?_ ?_
      · rw [bindingName?_event hk, Option.map_some, hread.event]
      · rw [bindingName?_event hl, Option.map_some, hread.event, hkl]
    · have hmem := hname (List.mem_filter.mp hk).1 (bindingName?_bound hk)
      rw [hread.bound] at hmem
      exact hdisjoint _ (List.mem_map_of_mem hp) _ hmem
    · have hmem := hname (List.mem_filter.mp hk).1 (bindingName?_event hk)
      rw [hread.event] at hmem
      exact hdisjoint _ (List.mem_map_of_mem hp) _ hmem
    · have hmem := hname hk (bindingName?_reserved hreserved)
      rw [hread.reserved hreserved] at hmem
      exact hdisjoint _ (List.mem_map_of_mem hp) _ hmem
  · intro h
    refine ⟨h.properties, fun k hk l hl c => same_binding hread h hk hl, ?_⟩
    intro x hx y hy hxy
    obtain ⟨p, hp, rfl⟩ := List.mem_map.mp hx
    obtain ⟨k, hk, hky⟩ := List.mem_filterMap.mp hy
    obtain ⟨name, hname, rfl⟩ := Option.map_eq_some_iff.mp hky
    rcases bindingName?_cases hk hname with ⟨hevent, rfl⟩ | ⟨hbound, rfl⟩ | ⟨hreserved, rfl⟩
    · rw [hread.event] at hxy
      exact h.propertyEvent p hp k hevent hxy
    · rw [hread.bound] at hxy
      exact h.propertyBound p hp k hbound hxy
    · rw [hread.reserved hreserved] at hxy
      exact h.propertyReserved p hp name hk hreserved hxy

end Apart

section Tags

variable {n : Node} {place : Place} {b : Block}

/-- The first piece of an element is its tag, with the names that its keys are shown under. -/
theorem tag_of_element (hrule : blockRule n = .ok .element)
    (hspread : ∀ b ∈ n.bindings, ∀ x, b.2 = some x → x.mode ≠ .spread)
    (h : renderNode place n = .ok b) : ∃ tag rest, b.pieces = tag :: rest ∧ tag.isTag = true ∧
      tag.attributes.map Attribute.name = tagNames n := by
  have hnames : ∀ {emitted}, emitAll n place = .ok emitted →
      (propertyAttributes n ++ emitted.attributes).map Attribute.name = tagNames n := fun hemitted => by
    rw [List.map_append, names_propertyAttributes, names_emitAll hspread hemitted, tagNames]
  cases givesBlock_of_rule hrule h with
  | void _ hemitted _ => exact ⟨_, [], rfl, rfl, hnames hemitted⟩
  | element _ hemitted _ _ => exact ⟨_, _, rfl, rfl, hnames hemitted⟩

/-- Names as they are written: only events, and properties that are named like a binding, clash. -/
theorem keysApart_id_iff
    (hkeys : (Entries.keys n.properties ++ Entries.keys n.bindings).Nodup) : KeysApart id n ↔
      (∀ k ∈ eventKeys n, ∀ l ∈ eventKeys n, eventName k n = eventName l n → k = l) ∧
      (∀ p ∈ shownKeys n, ∀ k ∈ boundKeys n, p ≠ k ++ ".bind") ∧
      (∀ p ∈ shownKeys n, ∀ k ∈ eventKeys n, p ≠ eventName k n ++ ".delegate") := by
  obtain ⟨_, _, hdisjoint⟩ := List.nodup_append.mp hkeys
  constructor
  · intro h
    exact ⟨h.events, h.propertyBound, h.propertyEvent⟩
  · rintro ⟨hevents, hbound, hevent⟩
    exact ⟨fun _ _ _ _ hsame => hsame, fun _ _ _ _ hsame => hsame, hevents, hbound, hevent,
      fun p hp k hk _ => hdisjoint p (List.mem_filter.mp hp).1 k hk⟩

/-- The tag of an element has the names of what is shown of its keys. Where no key is given twice
    and nothing is spread, two names are the same only when two events have one name, or a property
    has the name of a binding with its ending. What is read without case is the same when the keys
    are not apart so read. -/
theorem attribute_names_distinct_iff (hrule : blockRule n = .ok .element)
    (hkeys : (Entries.keys n.properties ++ Entries.keys n.bindings).Nodup)
    (hspread : ∀ b ∈ n.bindings, ∀ x, b.2 = some x → x.mode ≠ .spread)
    (h : renderNode place n = .ok b) :
    ∃ tag rest, b.pieces = tag :: rest ∧ tag.isTag = true ∧
      tag.attributes.map Attribute.name = tagNames n ∧
      ((tagNames n).Nodup ↔
        (∀ k ∈ eventKeys n, ∀ l ∈ eventKeys n, eventName k n = eventName l n → k = l) ∧
        (∀ p ∈ shownKeys n, ∀ k ∈ boundKeys n, p ≠ k ++ ".bind") ∧
        (∀ p ∈ shownKeys n, ∀ k ∈ eventKeys n, p ≠ eventName k n ++ ".delegate")) ∧
      (((tagNames n).map foldCase).Nodup ↔ KeysApart foldCase n) := by
  obtain ⟨tag, rest, hpieces, htag, hnames⟩ := tag_of_element hrule hspread h
  obtain ⟨hproperties, hbindings, _⟩ := List.nodup_append.mp hkeys
  have hwritten := nodup_read_tagNames isReading_id hproperties hbindings
  rw [List.map_id, keysApart_id_iff hkeys] at hwritten
  exact ⟨tag, rest, hpieces, htag, hnames, hwritten,
    nodup_read_tagNames isReading_foldCase hproperties hbindings⟩

end Tags

/-- An element with nothing below it. -/
def leaf (name : Text) (properties : Entries Json) (bindings : Entries Text) : Node :=
  ⟨.str name, properties, bindings.map fun b => (b.1, some (.ofCode (.str b.2) .normal)), [], .empty,
    none, []⟩

theorem noSpread_leaf {name : Text} {properties : Entries Json} {bindings : Entries Text} :
    ∀ b ∈ (leaf name properties bindings).bindings, ∀ x, b.2 = some x → x.mode ≠ .spread := by
  intro b hb x hx
  obtain ⟨e, _, rfl⟩ := List.mem_map.mp hb
  obtain rfl := Option.some.inj hx
  exact fun h => by cases h

theorem attribute_names_distinct_iff_search :
    let n := leaf "input" [("type", .str "search")]
      [("value", "state.text"), ("onInput", "find(event)"), ("onFocus", "open()"), ("class", "style")]
    blockRule n = .ok .element ∧
      (Entries.keys n.properties ++ Entries.keys n.bindings).Nodup ∧
      ∃ b tag rest, renderNode .start n = .ok b ∧ b.pieces = tag :: rest ∧ tag.isTag = true ∧
        tag.attributes.map Attribute.name =
          [ofString "type", "value.bind", "input.delegate", "focus.delegate", "class"] ∧
        (tagNames n).Nodup := by
  intro n
  have hkeys : (Entries.keys n.properties ++ Entries.keys n.bindings).Nodup := by decide
  obtain ⟨b, hb⟩ : ∃ b, renderNode .start n = .ok b := ⟨_, rfl⟩
  obtain ⟨tag, rest, hpieces, htag, hnames, hwritten, _⟩ :=
    attribute_names_distinct_iff rfl hkeys noSpread_leaf hb
  have hevents : ∀ k ∈ eventKeys n, ∀ l ∈ eventKeys n, eventName k n = eventName l n → k = l := by
    decide
  have hbound : ∀ p ∈ shownKeys n, ∀ k ∈ boundKeys n, p ≠ k ++ ".bind" := by decide
  have hevent : ∀ p ∈ shownKeys n, ∀ k ∈ eventKeys n, p ≠ eventName k n ++ ".delegate" := by decide
  exact ⟨rfl, hkeys, b, tag, rest, hb, hpieces, htag, hnames, hwritten.mpr ⟨hevents, hbound, hevent⟩⟩

/-- Changes of an input are its input events, so the handlers of both have one name. -/
theorem input_events_named_alike :
    let n := leaf "input" [] [("onChange", "save(event)"), ("onInput", "count(event)")]
    blockRule n = .ok .element ∧
      (Entries.keys n.properties ++ Entries.keys n.bindings).Nodup ∧
      (∀ b ∈ n.bindings, ∀ x, b.2 = some x → x.mode ≠ .spread) ∧
      ∃ b tag rest, renderNode .start n = .ok b ∧ b.pieces = tag :: rest ∧ tag.isTag = true ∧
        ¬(tag.attributes.map Attribute.name).Nodup := by
  intro n
  obtain ⟨b, hb⟩ : ∃ b, renderNode .start n = .ok b := ⟨_, rfl⟩
  obtain ⟨tag, rest, hpieces, htag, hnames⟩ := tag_of_element rfl noSpread_leaf hb
  refine ⟨rfl, by decide, noSpread_leaf, b, tag, rest, hb, hpieces, htag, ?_⟩
  rw [hnames]
  decide

end ElementCompiler.Markup
