import ElementCompiler.Proofs.Markup.AttributeReading
import ElementCompiler.Proofs.Snippet.Words

set_option autoImplicit false

/-!
The attributes of bindings before their double quotes are encoded. Code is encoded before its binding
is emitted, raw code and the sources of spreads while they are; whichever rule emits a binding, what
it emits is the encoding of one of these attributes, and has a name when its key is one.
-/

namespace ElementCompiler.Markup

open Attempt Text

/-- The attribute with its value encoded. -/
def Attribute.encoded (a : Attribute) : Attribute := ⟨a.name, a.value.map encodeQuotes⟩

/-- The attributes that a binding can be shown as when its code is the given one, by its rule. -/
inductive ShownAs (n : Node) (place : Place) (key : Text) (b : Binding) (code : Text) : Attribute → Prop
  | spread (suffix : Text) : b.mode = .spread → (∀ c ∈ suffix, c.is Char.isDigit = true) →
    ShownAs n place key b code (.of ("spreadProps" ++ suffix ++ ".bind") (bare key))
  | event {argument value : Text} : BindingRule.of key b.mode = .event →
    handlerValue argument (.str (encodeQuotes code)) place.callableNames = .ok value →
    ShownAs n place key b code (.of (eventName key n ++ ".delegate") (indentRest 2 value))
  | classes : BindingRule.of key b.mode = .classes →
    ShownAs n place key b code (.of "class" ("$\x7b" ++ code ++ "\x7d"))
  | ref : BindingRule.of key b.mode = .ref → ShownAs n place key b code (.of "ref" (trim code))
  | mapped {target : Text} : BindingRule.of key b.mode = .mapped target →
    ShownAs n place key b code (.of (target ++ ".bind") (indentRest 2 code))
  | checked {shown : Text} : BindingRule.of key b.mode = .plain →
    b.rawCode.orElse (.str code) = .str shown →
    ShownAs n place key b code (.of (key ++ ".bind") shown)
  | index : BindingRule.of key b.mode = .plain → trim (encodeQuotes code) ∈ place.indexNames →
    ShownAs n place key b code (.of (key ++ ".bind") indexToken)
  | plain : BindingRule.of key b.mode = .plain →
    ShownAs n place key b code (.of (key ++ ".bind") (indentRest 2 code))

section Encoded

variable {n : Node} {place : Place} {key code : Text} {b : Binding} {a : Attribute}

@[simp] theorem Attribute.encoded_of (name value : Text) :
    (Attribute.of name value).encoded = .of name (encodeQuotes value) := rfl

/-- Encoding changes nothing that is read. -/
theorem Attribute.decoded_encoded (a : Attribute) : a.encoded.decoded = a.decoded := by
  obtain ⟨name, _ | value⟩ := a
  · rfl
  · rw [encoded, decoded, Option.map_some, Option.map_some, decodeQuotes_encodeQuotes]
    rfl

theorem Attribute.isEncoded_encoded (a : Attribute) : a.encoded.IsEncoded := by
  obtain ⟨name, _ | value⟩ := a
  · rintro _ ⟨⟩
  · rintro _ ⟨⟩
    exact quote_notMem_encodeQuotes value

theorem quote_notMem_handlerValue {argument value : Text} {names : List Text}
    (h : handlerValue argument (.str (encodeQuotes code)) names = .ok value) : CodePoint.char '"' ∉ value := by
  have hcode := lacks_beq.mpr (quote_notMem_encodeQuotes code)
  exact lacks_beq.mp (lacks_handlerValue (lacks_beq.mpr (by decide)) (lacks_beq.mpr (by decide))
    ⟨_, rfl, hcode⟩ h)

/-- What a binding with encoded code is emitted as is the encoding of what it is shown as. -/
theorem EmitsAttribute.exists_shownAs {n' : Node} (hname : n'.name = n.name)
    (h : EmitsAttribute n' place key { b with code := .str (encodeQuotes code) } a) :
    ∃ s, ShownAs n place key b code s ∧ a = s.encoded := by
  cases h with
  | spread suffix hmode hsuffix => exact ⟨_, .spread suffix hmode hsuffix, rfl⟩
  | @event argument value hrule hvalue =>
    refine ⟨_, .event hrule hvalue, ?_⟩
    have hquote : CodePoint.char '"' ∉ indentRest 2 value := fun hmem =>
      (mem_indentRest hmem).elim (quote_notMem_handlerValue hvalue) (by decide)
    rw [Attribute.encoded_of, encodeQuotes_eq_self hquote, eventName, eventName, hname]
  | classes hrule =>
    refine ⟨_, .classes hrule, ?_⟩
    rw [Attribute.encoded_of, encodeQuotes_append, encodeQuotes_append]
    rfl
  | ref hrule hcode =>
    obtain rfl := Json.str.inj hcode
    exact ⟨_, .ref hrule, by rw [Attribute.encoded_of, trim_encodeQuotes]⟩
  | mapped hrule hcode =>
    obtain rfl := Json.str.inj hcode
    exact ⟨_, .mapped hrule, by rw [Attribute.encoded_of, indentRest_encodeQuotes]⟩
  | checked hrule hcode =>
    unfold Json.orElse at hcode
    split at hcode
    next hgiven => exact ⟨_, .checked hrule ((if_pos hgiven).trans hcode), rfl⟩
    next hgiven =>
      obtain rfl := Json.str.inj hcode
      refine ⟨_, .checked hrule (if_neg hgiven), ?_⟩
      rw [Attribute.encoded_of, encodeQuotes_eq_self (quote_notMem_encodeQuotes code)]
  | index hrule hcode hindex =>
    obtain rfl := Json.str.inj hcode
    exact ⟨_, .index hrule hindex, rfl⟩
  | plain hrule hcode =>
    obtain rfl := Json.str.inj hcode
    exact ⟨_, .plain hrule, by rw [Attribute.encoded_of, indentRest_encodeQuotes]⟩

end Encoded

section Names

variable {n : Node} {place : Place} {key code : Text} {b : Binding} {a : Attribute}

theorem mem_of_endsName {c : CodePoint} (h : endsName c = true) : c ∈ ofString "\t\n\x0c\r />=" := by
  simp only [endsName, endsTagName, isSpace, Bool.or_eq_true, beq_iff_eq] at h
  simp only [ofString, List.mem_map]
  rcases h with ((((((rfl | rfl) | rfl) | rfl) | rfl) | rfl) | rfl) | rfl
  all_goals exact ⟨_, by decide, rfl⟩

theorem areSigns_endsName : AreSigns endsName := by
  have hsigns : ∀ c ∈ ofString "\t\n\x0c\r />=", ¬ IsBeyondSigns c := by
    unfold IsBeyondSigns
    decide
  exact fun c h => Bool.eq_false_iff.mpr fun hends => hsigns c (mem_of_endsName hends) h

theorem lacks_digits {s : Text} (hs : ∀ c ∈ s, c.is Char.isDigit = true) : Lacks endsName s := by
  have hsigns : ∀ c ∈ ofString "\t\n\x0c\r />=", ¬ c.is Char.isDigit = true := by decide
  exact fun c hc => Bool.eq_false_iff.mpr fun hends => hsigns c (mem_of_endsName hends) (hs c hc)

theorem isAttributeName_append {s t : Text} (hs : Lacks endsName s) (ht : IsAttributeName t) :
    IsAttributeName (s ++ t) :=
  ⟨fun h => ht.nonempty (List.append_eq_nil_iff.mp h).2, lacks_append.mpr ⟨hs, ht.ends⟩⟩

/-- A binding whose key is a name is shown under a name. -/
theorem ShownAs.isAttributeName (h : ShownAs n place key b code a) (hkey : IsAttributeName key) :
    IsAttributeName a.name := by
  have hbind : IsAttributeName ".bind" := by decide
  cases h with
  | spread suffix _ hsuffix =>
    have hlead : IsAttributeName "spreadProps" := by decide
    exact isAttributeName_append (lacks_append.mpr ⟨hlead.ends, lacks_digits hsuffix⟩) hbind
  | event =>
    exact isAttributeName_append (lacks_eventName areSigns_endsName hkey.ends)
      (show IsAttributeName ".delegate" by decide)
  | classes => exact (by decide : IsAttributeName "class")
  | ref => exact (by decide : IsAttributeName "ref")
  | @mapped target hrule =>
    have htargets : ∀ entry ∈ mappedKeys, IsAttributeName entry.2 := by decide
    obtain ⟨k, hk⟩ := Entries.mem_of_get? (get?_mappedKeys_of_mapped hrule)
    exact isAttributeName_append (htargets _ hk).ends hbind
  | checked | index | plain => exact isAttributeName_append hkey.ends hbind

end Names

section Tags

variable {n : Node} {place : Place} {key : Text} {b : Binding} {a : Attribute} {p : Piece}

theorem EmitsAttribute.reads (h : EmitsAttribute n place key b a) {code : Text} (hb : b.code = .str code)
    (hcode : CodePoint.char '"' ∉ code) :
    a.IsEncoded ∧ (IsAttributeName key → IsAttributeName a.name) := by
  have hsame : b = { b with code := .str (encodeQuotes code) } := by
    rw [encodeQuotes_eq_self hcode, ← hb]
  rw [hsame] at h
  obtain ⟨s, hs, rfl⟩ := h.exists_shownAs rfl
  exact ⟨s.isEncoded_encoded, hs.isAttributeName⟩

/-- The codes of the bindings are texts without double quotes. -/
def HasEncodedCode (n : Node) : Prop :=
  ∀ b ∈ n.bindings, ∃ x code, b.2 = some x ∧ x.code = .str code ∧ CodePoint.char '"' ∉ code

/-- The keys of the node are names of attributes, and its name is one of a tag. -/
structure HasAttributeNames (n : Node) : Prop where
  tag : ∀ name, n.name = .str name → IsSelector (elementSelector name)
  properties : ∀ p ∈ n.properties, IsAttributeName p.1
  bindings : ∀ b ∈ n.bindings, IsAttributeName b.1

/-- The attributes of the tag that are written as the node has them, and of a loop what it has beside
    its code. -/
def literalAttributes (n : Node) : List Attribute :=
  match blockRule n with
  | .ok .element => propertyAttributes n
  | .ok .loop => [.of "repeat.for" n.scope.forName.display]
  | _ => []

theorem HasEncodedCode.binding? (h : HasEncodedCode n) (hb : n.binding? key = some b) :
    ∃ code, b.code = .str code ∧ CodePoint.char '"' ∉ code := by
  rw [Node.binding?, Option.join_eq_some_iff] at hb
  obtain ⟨k, hk⟩ := Entries.mem_of_get? hb
  obtain ⟨x, code, hx, hcode⟩ := h _ hk
  obtain rfl := Option.some.inj hx
  exact ⟨code, hcode⟩

theorem emitAll_reads {e : Emitted} (h : emitAll n place = .ok e) (hcode : HasEncodedCode n) :
    ∀ a ∈ e.attributes, a.IsEncoded ∧ (HasAttributeNames n → IsAttributeName a.name) := by
  obtain ⟨es, hes, hattributes, _⟩ := emitAll_emits h
  intro a ha
  rw [hattributes] at ha
  obtain ⟨e, he, ha⟩ := List.mem_flatMap.mp ha
  obtain ⟨b, hb, x, hx, hemits⟩ := exists_left hes e he
  obtain ⟨y, code, hy, hcode, hquote⟩ := hcode b hb
  obtain rfl := Option.some.inj (hx.symm.trans hy)
  obtain ⟨hencoded, hname⟩ := (hemits.attributes a ha).reads hcode hquote
  exact ⟨hencoded, fun hn => hname (hn.bindings b hb)⟩

theorem quote_notMem_slotSelector (name : Text) : CodePoint.char '"' ∉ slotSelector name :=
  (isTagName_kebabFrom _ _).notMem (by decide) (by decide)

/-- The tag of a node with names for its keys is a tag with names. -/
theorem OpensTag.isSelector (h : OpensTag n p) (hn : HasAttributeNames n) : IsSelector p.tag := by
  cases h with
  | element _ _ hname _ | void _ _ hname _ => exact hn.tag _ hname
  | slot | placeholder | projection => exact (by decide : IsSelector "slot")
  | loop | condition | otherwise => exact (by decide : IsSelector templateTag)

theorem OpensTag.isAttributeName (h : OpensTag n p) (hn : HasAttributeNames n) (hcode : HasEncodedCode n) :
    ∀ a ∈ p.attributes, IsAttributeName a.name := by
  cases h with
  | element _ _ _ hemitted | void _ _ _ hemitted =>
    intro a ha
    rcases List.mem_append.mp ha with ha | ha
    · obtain ⟨q, hq, rfl⟩ := List.mem_map.mp ha
      exact hn.properties q (List.mem_of_mem_filter hq)
    · exact (emitAll_reads hemitted hcode a ha).2 hn
  | slot _ hattributes =>
    rcases slotAttributes_eq_ok hattributes with rfl | ⟨name, rfl⟩
    · rintro _ ⟨⟩
    · exact List.forall_mem_singleton.mpr (by decide : IsAttributeName "name")
  | placeholder => rintro _ ⟨⟩
  | projection => exact List.forall_mem_singleton.mpr (by decide : IsAttributeName "select")
  | loop => exact List.forall_mem_singleton.mpr (by decide : IsAttributeName "repeat.for")
  | condition => exact List.forall_mem_singleton.mpr (by decide : IsAttributeName "if.bind")
  | otherwise => exact List.forall_mem_singleton.mpr (by decide : IsAttributeName "else")

/-- Only what is written as the node has it can bring a double quote into the values of its tag. -/
theorem OpensTag.isEncoded_iff (h : OpensTag n p) (hcode : HasEncodedCode n) :
    (∀ a ∈ p.attributes, a.IsEncoded) ↔ ∀ a ∈ literalAttributes n, a.IsEncoded := by
  unfold literalAttributes
  have hsingle : ∀ {name value : Text}, (∀ a ∈ [Attribute.of name value], a.IsEncoded) ↔
      CodePoint.char '"' ∉ value := List.forall_mem_singleton.trans isEncoded_of
  have hnone : ∀ {as : List Attribute}, (∀ a ∈ as, a.IsEncoded) →
      ((∀ a ∈ as, a.IsEncoded) ↔ ∀ a ∈ ([] : List Attribute), a.IsEncoded) :=
    fun has => iff_of_true has (by rintro _ ⟨⟩)
  cases h with
  | element hrule _ _ hemitted | void hrule _ _ hemitted =>
    rw [hrule]
    change (∀ a ∈ _ ++ _, _) ↔ _
    rw [List.forall_mem_append]
    exact and_iff_left fun a ha => (emitAll_reads hemitted hcode a ha).1
  | slot hrule hattributes =>
    rw [hrule]
    rcases slotAttributes_eq_ok hattributes with rfl | ⟨name, rfl⟩
    · rfl
    · exact hnone (hsingle.mpr (quote_notMem_slotSelector name))
  | placeholder hrule =>
    rw [hrule]
    rfl
  | @projection code hrule =>
    rw [hrule]
    refine hnone (hsingle.mpr ?_)
    have hselector := quote_notMem_slotSelector (readMember code)
    simp [ofString, hselector]
  | @loop collection hrule hcollection =>
    rw [hrule]
    obtain ⟨b, hb, hsame⟩ := loopCollection_eq_ok hcollection
    obtain ⟨code, hcode, hquote⟩ := hcode.binding? hb
    obtain rfl := Json.str.inj (hsame.symm.trans hcode)
    refine hsingle.trans (Iff.trans ?_ hsingle.symm)
    simp [ofString, hquote]
  | condition hrule =>
    rw [hrule]
    refine hnone (hsingle.mpr ?_)
    unfold conditionText
    split
    next b hb =>
      obtain ⟨code, hcode, hquote⟩ := hcode.binding? hb
      rwa [hcode]
    next => decide
  | otherwise hrule =>
    rw [hrule]
    exact hnone (List.forall_mem_singleton.mpr (by rintro _ ⟨⟩))

end Tags

end ElementCompiler.Markup
