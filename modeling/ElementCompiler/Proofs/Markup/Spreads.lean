import ElementCompiler.Proofs.Markup.Elements
import ElementCompiler.Proofs.Markup.Emission
import ElementCompiler.Proofs.Markup.LoopIndexes
import Mathlib.Data.List.Nodup

set_option autoImplicit false

/-!
What the spread bindings of an element are emitted as. A binding is looked up by its key among the
sources, so each finds the place of its own source exactly when the keys name the sources, and no
source is blank or is there twice.
-/

namespace ElementCompiler.Markup

open Attempt Text

def spreadAttribute (count place : Nat) (source : Text) : Attribute :=
  .of ("spreadProps" ++ (if count = 1 then [] else ofString (toString place)) ++ ".bind")
    (encodeQuotes source)

/-- One attribute for each source, numbered when there are several. -/
def placedSpreads (sources : List Text) : List Attribute :=
  sources.zipIdx.map fun s => spreadAttribute sources.length s.2 s.1

/-- What a key that names the target is emitted as. -/
def foundSpread (sources : List Text) (target : Text) : List Attribute :=
  ((sourcePlace? target sources).map fun place => spreadAttribute sources.length place target).toList

/-- The name of an attribute that a source is spread under. -/
def isSpreadName (name : Text) : Bool :=
  match after? "spreadProps" name with
  | some rest => rest.dropWhile (·.is Char.isDigit) == ofString ".bind"
  | none => false

def isSpreadBinding (b : Text × Option Binding) : Bool := b.2.any (·.mode = .spread)

/-- The attributes of a tag that the spread bindings of its node are emitted as. -/
def EmitsSpreads (n : Node) (place : Place) (p : Piece) (spreads : List Attribute) : Prop :=
  ∃ sources es, spreadSources n.bindings = .ok sources ∧
    List.Forall₂ (fun b e => ∃ x, b.2 = some x ∧ emitBinding n place sources b.1 x = .ok e) n.bindings es ∧
    p.attributes = propertyAttributes n ++ es.flatMap Emitted.attributes ∧
    spreads = (n.bindings.zip es).flatMap fun b => if isSpreadBinding b.1 then b.2.attributes else []

/-- Nothing but a source is put into the tag of the node under the name of a spread attribute. -/
structure NamesNoSpread (n : Node) : Prop where
  properties : ∀ a ∈ propertyAttributes n, isSpreadName a.name = false
  bindings : ∀ key x, (key, some x) ∈ n.bindings → BindingRule.of key x.mode = .plain →
    isSpreadName (key ++ ".bind") = false

/-- The sources are what the keys name, and each can be told from the others. -/
structure AreTold (sources targets : List Text) : Prop where
  named : sources = targets
  apart : targets.Nodup
  given : [] ∉ targets

section Lists

variable {α β : Type} {f : α → List β} {g : α × Nat → β} {l : List α}

theorem length_flatMap_le_of_single (h : ∀ x ∈ l, (f x).length ≤ 1) : (l.flatMap f).length ≤ l.length := by
  induction l with
  | nil => exact Nat.le_refl 0
  | cons x l ih =>
    obtain ⟨hx, hl⟩ := List.forall_mem_cons.mp h
    have hrest := ih hl
    rw [List.flatMap_cons, List.length_append, List.length_cons]
    omega

/-- Where each element gives one thing at the most, and together they give as many as they are, each
    gives its own. -/
theorem flatMap_eq_zipIdx_map (h : ∀ x ∈ l, (f x).length ≤ 1) (k : Nat) :
    l.flatMap f = (l.zipIdx k).map g ↔ ∀ i, (hi : i < l.length) → f l[i] = [g (l[i], k + i)] := by
  induction l generalizing k with
  | nil => simp
  | cons x l ih =>
    obtain ⟨hx, hl⟩ := List.forall_mem_cons.mp h
    have hrest := ih hl (k + 1)
    have hshort := length_flatMap_le_of_single hl
    rw [List.flatMap_cons, List.zipIdx_cons, List.map_cons]
    constructor
    · intro hall i hi
      match hfx : f x with
      | [] =>
        rw [hfx, List.nil_append] at hall
        have hlen := congrArg List.length hall
        rw [List.length_cons, List.length_map, List.length_zipIdx] at hlen
        omega
      | [a] =>
        rw [hfx, List.singleton_append] at hall
        obtain ⟨rfl, htail⟩ := List.cons.inj hall
        cases i with
        | zero => exact hfx
        | succ i =>
          have hstep := hrest.mp htail i (Nat.lt_of_succ_lt_succ hi)
          rw [List.getElem_cons_succ, hstep, Nat.add_right_comm, Nat.add_assoc]
      | _ :: _ :: _ => simp [hfx] at hx
    · intro heach
      have hhead := heach 0 (Nat.zero_lt_succ _)
      rw [List.getElem_cons_zero, Nat.add_zero] at hhead
      rw [hhead, List.singleton_append, hrest.mpr fun i hi => ?_]
      have hstep := heach (i + 1) (Nat.succ_lt_succ hi)
      rwa [List.getElem_cons_succ, ← Nat.add_assoc, Nat.add_right_comm] at hstep

end Lists

section Places

variable {sources targets : List Text} {target : Text} {place : Nat}

theorem sourcePlace?_eq_some : sourcePlace? target sources = some place ↔ target ≠ [] ∧
    ∃ h : place < sources.length, sources[place] = target ∧
      ∀ j, (hj : j < place) → sources[j] ≠ target := by
  rw [sourcePlace?]
  by_cases hempty : target = []
  · simp [hempty]
  · rw [if_neg (by simpa using hempty), List.findIdx?_eq_some_iff_getElem]
    simp [hempty]

theorem spreadAttribute_inj {count i j : Nat} {s t : Text} (hcount : count ≠ 1)
    (h : spreadAttribute count i s = spreadAttribute count j t) : i = j := by
  have hname := (Attribute.mk.inj h).1
  simp only [if_neg hcount] at hname
  have hdigits : (toString i).toList.map CodePoint.char = (toString j).toList.map CodePoint.char :=
    List.append_cancel_left (List.append_cancel_right hname)
  have hchars : i.repr.toList = j.repr.toList :=
    List.map_injective_iff.mpr (fun _ _ h => CodePoint.char.inj h) hdigits
  rw [Nat.toList_repr, Nat.toList_repr] at hchars
  rw [← Nat.ofDigitChars_ten_toDigits (n := i), hchars, Nat.ofDigitChars_ten_toDigits]

/-- A target is emitted with the number of its source exactly when that source is the first one that
    is the target. -/
theorem foundSpread_eq_iff (hplace : place < sources.length) :
    foundSpread sources target = [spreadAttribute sources.length place target] ↔
      sourcePlace? target sources = some place := by
  unfold foundSpread
  constructor
  · intro h
    cases hfound : sourcePlace? target sources with
    | none => simp [hfound] at h
    | some k =>
      rw [hfound, Option.map_some, Option.toList_some] at h
      obtain ⟨hk, _⟩ := (sourcePlace?_eq_some.mp hfound).2
      by_cases hone : sources.length = 1
      · have hzero : k = place := by omega
        rw [hzero]
      · rw [spreadAttribute_inj hone (List.cons.inj h).1]
  · intro h
    rw [h, Option.map_some, Option.toList_some]

theorem length_foundSpread_le (sources : List Text) (target : Text) :
    (foundSpread sources target).length ≤ 1 := by
  unfold foundSpread
  cases sourcePlace? target sources with
  | none => exact Nat.zero_le 1
  | some place => exact Nat.le_refl 1

theorem areTold_iff (hlength : sources.length = targets.length) : AreTold sources targets ↔
    ∀ i, (hi : i < targets.length) → sourcePlace? targets[i] sources = some i := by
  simp only [sourcePlace?_eq_some]
  constructor
  · rintro ⟨rfl, hapart, hgiven⟩ i hi
    refine ⟨fun hempty => hgiven (hempty ▸ List.getElem_mem hi), hi, rfl, fun j hj hsame => ?_⟩
    have hij := (List.Nodup.getElem_inj_iff hapart).mp hsame
    omega
  · intro h
    have hnamed : sources = targets :=
      List.ext_getElem hlength fun i _ hi => (h i hi).2.2.1
    obtain rfl := hnamed
    refine ⟨rfl, List.nodup_iff_pairwise_ne.mpr ?_, fun hempty => ?_⟩
    · refine List.pairwise_iff_getElem.mpr fun i j hi hj hij hsame => ?_
      exact (h j hj).2.2.2 i hij hsame
    · obtain ⟨i, hi, hnil⟩ := List.getElem_of_mem hempty
      exact (h i hi).1 hnil

/-- The targets are emitted as one attribute each, in their order, exactly when they are told. -/
theorem flatMap_foundSpread (hlength : sources.length = targets.length) :
    targets.flatMap (foundSpread sources) = placedSpreads targets ↔ AreTold sources targets := by
  rw [areTold_iff hlength, placedSpreads,
    flatMap_eq_zipIdx_map (fun t _ => length_foundSpread_le sources t) 0]
  refine forall₂_congr fun i hi => ?_
  rw [← hlength, Nat.zero_add, foundSpread_eq_iff (hlength ▸ hi)]

/-- No two of the attributes have one name. -/
theorem nodup_placedSpreads (sources : List Text) : ((placedSpreads sources).map (·.name)).Nodup := by
  refine List.nodup_iff_pairwise_ne.mpr (List.pairwise_iff_getElem.mpr fun i j hi hj hij hsame => ?_)
  simp only [placedSpreads, List.length_map, List.length_zipIdx] at hi hj
  have hcount : sources.length ≠ 1 := by omega
  simp only [placedSpreads, List.getElem_map, List.getElem_zipIdx, Nat.zero_add] at hsame
  have heq := spreadAttribute_inj (s := []) (t := []) hcount (congrArg (Attribute.of · (encodeQuotes [])) hsame)
  omega

end Places

section Elements

variable {n : Node} {place : Place} {key : Text} {x : Binding} {a : Attribute} {sources : List Text}
  {bs : Entries (Option Binding)} {es : List Emitted} {p : Piece} {spreads : List Attribute} {k : Block}

theorem isSpreadName_placed {digits : Text} (h : ∀ c ∈ digits, c.is Char.isDigit = true) :
    isSpreadName ("spreadProps" ++ digits ++ ".bind") = true := by
  have hafter : after? (ofString "spreadProps") ("spreadProps" ++ digits ++ ".bind") =
      some (digits ++ ofString ".bind") := by
    rw [List.append_assoc]
    exact after?_append _ _
  rw [isSpreadName, hafter]
  simp only [List.dropWhile_append_of_pos h]
  decide

theorem getLast?_of_isSpreadName {name : Text} (h : isSpreadName name = true) :
    name.getLast? = some (.char 'd') := by
  unfold isSpreadName at h
  split at h
  next rest hrest =>
    have hbind : rest.dropWhile (·.is Char.isDigit) = ofString ".bind" := beq_iff_eq.mp h
    rw [eq_append_of_after? hrest, ← List.takeWhile_append_dropWhile (p := (·.is Char.isDigit)) (l := rest),
      hbind, ← List.append_assoc]
    exact List.getLast?_append_of_ne_nil _ (by decide)
  next => cases h

theorem emitSpread_attributes (key : Text) (sources : List Text) :
    (emitSpread key sources).attributes = foundSpread sources (bare key) := by
  unfold emitSpread foundSpread
  extract_lets target
  cases sourcePlace? target sources with
  | none => rfl
  | some place => simp only [Option.map_some, Option.toList_some, spreadAttribute]; split <;> rfl

/-- Only a spread binding is emitted under the name of a spread attribute. -/
theorem isSpreadName_emitted (h : EmitsAttribute n place key x a)
    (hplain : BindingRule.of key x.mode = .plain → isSpreadName (key ++ ".bind") = false) :
    isSpreadName a.name = isSpreadBinding (key, some x) := by
  have hother : ∀ {rule}, BindingRule.of key x.mode = rule → rule ≠ .spread →
      isSpreadBinding (key, some x) = false := by
    intro rule hrule hne
    refine decide_eq_false fun hmode => hne ?_
    rw [← hrule, BindingRule.of, if_pos hmode]
  have hends : ∀ name : Text, name.getLast? ≠ some (.char 'd') → isSpreadName name = false := fun _ hlast =>
    Bool.eq_false_iff.mpr fun hname => hlast (getLast?_of_isSpreadName hname)
  cases h with
  | spread suffix hmode hdigits => exact (isSpreadName_placed hdigits).trans (decide_eq_true hmode).symm
  | event hrule =>
    have hdelegate : (eventName key n ++ ofString ".delegate").getLast? = (ofString ".delegate").getLast? :=
      List.getLast?_append_of_ne_nil _ (by decide)
    rw [hother hrule (by simp)]
    exact hends _ fun hlast => absurd (hdelegate.symm.trans hlast) (by decide)
  | classes hrule =>
    rw [hother hrule (by simp)]
    exact hends "class" (by decide)
  | ref hrule =>
    rw [hother hrule (by simp)]
    exact hends "ref" (by decide)
  | mapped hrule =>
    have htargets : ∀ entry ∈ mappedKeys, isSpreadName (entry.2 ++ ".bind") = false := by decide
    obtain ⟨k, hk⟩ := Entries.mem_of_get? (get?_mappedKeys_of_mapped hrule)
    exact (htargets _ hk).trans (hother hrule (by simp)).symm
  | checked hrule | index hrule | plain hrule => exact (hplain hrule).trans (hother hrule (by simp)).symm

/-- The spread bindings are emitted as what their keys find among the sources. -/
theorem spreads_of_emitted
    (h : List.Forall₂ (fun b e => ∃ x, b.2 = some x ∧ emitBinding n place sources b.1 x = .ok e) bs es) :
    ((bs.zip es).flatMap fun b => if isSpreadBinding b.1 then b.2.attributes else []) =
      (bs.filterMap fun b => b.2.bind fun x => if x.mode = .spread then some (bare b.1) else none).flatMap
        (foundSpread sources) := by
  induction h with
  | nil => rfl
  | @cons b e bs es hb _ ih =>
    obtain ⟨key, _⟩ := b
    obtain ⟨x, rfl, hemits⟩ := hb
    rw [List.zip_cons_cons, List.flatMap_cons, ih]
    by_cases hmode : x.mode = .spread
    · have hrule : BindingRule.of key x.mode = .spread := by rw [BindingRule.of, if_pos hmode]
      cases givesEmitted_of_rule hrule hemits
      rw [List.filterMap_cons_some (b := bare key) (by simp [hmode]), List.flatMap_cons, isSpreadBinding,
        Option.any_some, if_pos (decide_eq_true hmode), emitSpread_attributes]
    · rw [List.filterMap_cons_none (by simp [hmode]), isSpreadBinding, Option.any_some,
        if_neg (by simpa using hmode), List.nil_append]

theorem filter_emitted (hplain : ∀ key x, (key, some x) ∈ bs → BindingRule.of key x.mode = .plain →
      isSpreadName (key ++ ".bind") = false)
    (h : List.Forall₂ (fun b e => ∃ x, b.2 = some x ∧ emitBinding n place sources b.1 x = .ok e) bs es) :
    (es.flatMap Emitted.attributes).filter (fun a => isSpreadName a.name) =
      (bs.zip es).flatMap fun b => if isSpreadBinding b.1 then b.2.attributes else [] := by
  induction h with
  | nil => rfl
  | @cons b e bs es hb _ ih =>
    obtain ⟨key, _⟩ := b
    obtain ⟨x, rfl, hemits⟩ := hb
    have hnames : ∀ a ∈ e.attributes, isSpreadName a.name = isSpreadBinding (key, some x) := fun a ha =>
      isSpreadName_emitted ((emitsBy_emitBinding hemits).attributes a ha)
        (hplain key x List.mem_cons_self)
    rw [List.flatMap_cons, List.filter_append, List.zip_cons_cons, List.flatMap_cons,
      ih fun key x hmem => hplain key x (List.mem_cons_of_mem _ hmem)]
    refine congrArg (· ++ _) ?_
    rw [List.filter_congr hnames]
    cases isSpreadBinding (key, some x) with
    | true => exact List.filter_true e.attributes
    | false => exact List.filter_false e.attributes

/-- A tag whose attributes have names of their own has no spread attributes but those of the spread
    bindings. -/
theorem EmitsSpreads.eq_filter (h : EmitsSpreads n place p spreads) (hnames : NamesNoSpread n) :
    p.attributes.filter (fun a => isSpreadName a.name) = spreads := by
  obtain ⟨sources, es, _, hes, hattributes, rfl⟩ := h
  rw [hattributes, List.filter_append, filter_emitted hnames.bindings hes,
    List.filter_eq_nil_iff.mpr fun a ha => by simp [hnames.properties a ha], List.nil_append]

/-- Each source of an element has its own attribute exactly when the sources are told by the keys. -/
theorem EmitsSpreads.eq_placed_iff (h : EmitsSpreads n place p spreads)
    (hsources : spreadSources n.bindings = .ok sources) (hlength : sources.length = (spreadTargets n).length) :
    spreads = placedSpreads (spreadTargets n) ↔ AreTold sources (spreadTargets n) := by
  obtain ⟨sources', es, hsources', hes, _, rfl⟩ := h
  obtain rfl := Except.ok.inj (hsources.symm.trans hsources')
  rw [spreads_of_emitted hes]
  exact flatMap_foundSpread hlength

theorem exists_emitsSpreads (hrule : blockRule n = .ok .element) (hk : renderNode place n = .ok k) :
    ∃ p ∈ k.pieces, Writes place n p ∧ ∃ spreads, EmitsSpreads n place p spreads := by
  obtain ⟨p, hp, emitted, hemitted, hwrites, hattributes⟩ := exists_written_tag hrule hk
  obtain ⟨sources, hsources, hemitted⟩ := bind_eq_ok.mp hemitted
  obtain ⟨es, hes, hemitted⟩ := bind_eq_ok.mp hemitted
  obtain rfl := Except.ok.inj hemitted
  rw [concat_attributes] at hattributes
  exact ⟨p, hp, hwrites, _, sources, es, hsources, emitBindings_eq_ok hes, hattributes, rfl⟩

theorem text_ne_nil_of_element (hrule : blockRule n = .ok .element) (hk : renderNode place n = .ok k) :
    k.text ≠ [] := by
  cases givesBlock_of_rule hrule hk with
  | void | element => exact List.cons_ne_nil _ _

end Elements

end ElementCompiler.Markup
