import ElementCompiler.Proofs.Markup.Attributes
import ElementCompiler.Proofs.Markup.Rules

set_option autoImplicit false

/-!
Loop indexes written into the tree. Instead of carrying the index names down while a tree is
rendered, the codes that show an index can be replaced by the token beforehand, and the tree that
results is rendered as if no loop had an index.
-/

namespace ElementCompiler.Markup

open Attempt Text

/-- The index names that are known below the node. -/
def indexNamesBelow (names : List Text) (n : Node) : List Text :=
  match n.isLoop, n.scope.indexName with
  | true, .str name => if name.isEmpty then names else name :: names
  | _, _ => names

/-- The scope of the node, without the index when it is a loop. -/
def scopeWithoutIndex (n : Node) : Scope :=
  if n.isLoop then { n.scope with indexName := .null } else n.scope

/-- The bindings that show an index: the text of an interpolation, and on an element the default
    attributes. -/
def showsIndex (n : Node) (key : Text) (b : Binding) : Bool :=
  match blockRule n with
  | .ok (.interpolation code) => key == textKey && !isSlotKey (readMember code)
  | .ok .element => BindingRule.of key b.mode = .plain && !isChecked n key
  | _ => false

/-- The token in place of a code that is one of the names. -/
def Binding.withToken (names : List Text) (b : Binding) : Binding :=
  match b.code with
  | .str code => if names.contains (trim code) then { b with code := .str indexToken } else b
  | _ => b

def bindingWithToken (names : List Text) (n : Node) (key : Text) (b : Binding) : Binding :=
  if showsIndex n key b then Binding.withToken names b else b

def bindingsWithTokens (names : List Text) (n : Node) : Entries (Option Binding) :=
  n.bindings.map fun e => (e.1, e.2.map (bindingWithToken names n e.1))

mutual

/-- The node with the token for the names and for the indexes of its loops, which are taken away. -/
def withTokens (names : List Text) : Node → Node
  | ⟨name, properties, bindings, children, scope, elseBranch, metadata⟩ =>
    let n : Node := ⟨name, properties, bindings, children, scope, elseBranch, metadata⟩
    ⟨name, properties, bindingsWithTokens names n, nodesWithTokens (indexNamesBelow names n) children,
      scopeWithoutIndex n, branchWithTokens names elseBranch, metadata⟩

def nodesWithTokens (names : List Text) : List Node → List Node
  | [] => []
  | n :: rest => withTokens names n :: nodesWithTokens names rest

def branchWithTokens (names : List Text) : Option Node → Option Node
  | none => none
  | some n => some (withTokens names n)

end

/-- The place without the indexes of the loops around it. -/
def Place.withoutIndexes (place : Place) : Place := { place with indexNames := [] }

section Fields

variable (names : List Text) (n : Node)

theorem withTokens_name : (withTokens names n).name = n.name := by
  cases n
  rw [withTokens]

theorem withTokens_properties : (withTokens names n).properties = n.properties := by
  cases n
  rw [withTokens]

theorem withTokens_bindings : (withTokens names n).bindings = bindingsWithTokens names n := by
  cases n
  rw [withTokens]

theorem withTokens_children : (withTokens names n).children =
    nodesWithTokens (indexNamesBelow names n) n.children := by
  cases n
  rw [withTokens]

theorem withTokens_scope : (withTokens names n).scope = scopeWithoutIndex n := by
  cases n
  rw [withTokens]

theorem withTokens_elseBranch : (withTokens names n).elseBranch =
    branchWithTokens names n.elseBranch := by
  cases n
  rw [withTokens]

theorem get?_bindingsWithTokens (key : Text) (bindings : Entries (Option Binding)) :
    Entries.get? (bindings.map fun e => (e.1, e.2.map (bindingWithToken names n e.1))) key =
      (Entries.get? bindings key).map (Option.map (bindingWithToken names n key)) := by
  induction bindings with
  | nil => rfl
  | cons e bindings ih =>
    obtain ⟨k, b⟩ := e
    rw [List.map_cons, Entries.get?, Entries.get?]
    split
    next hk => rw [eq_of_beq hk, Option.map_some]
    next => exact ih

theorem withTokens_binding? (key : Text) :
    (withTokens names n).binding? key = (n.binding? key).map (bindingWithToken names n key) := by
  rw [Node.binding?, Node.binding?, withTokens_bindings, bindingsWithTokens, get?_bindingsWithTokens]
  rcases Entries.get? n.bindings key with _ | _ | _ <;> rfl

theorem withTokens_has (key : Text) :
    Entries.has (withTokens names n).bindings key = Entries.has n.bindings key := by
  rw [Entries.has, Entries.has, withTokens_bindings, bindingsWithTokens, get?_bindingsWithTokens,
    Option.isSome_map]

theorem mode_bindingWithToken (key : Text) (b : Binding) :
    (bindingWithToken names n key b).mode = b.mode := by
  unfold bindingWithToken Binding.withToken
  grind

variable {n}

theorem bindingsWithTokens_eq_self (h : ∀ key b, showsIndex n key b = false) :
    bindingsWithTokens names n = n.bindings := by
  have hb : ∀ key, bindingWithToken names n key = id := fun key => by
    funext b
    rw [bindingWithToken, h key b, if_neg Bool.false_ne_true, id]
  simp only [bindingsWithTokens, hb, Option.map_id_fun, id]
  exact List.map_id' _

theorem showsIndex_textKey {b : Binding} (h : ∀ code, blockRule n ≠ .ok (.interpolation code)) :
    showsIndex n textKey b = false := by
  have hplain : BindingRule.of textKey b.mode ≠ .plain := by
    cases b.mode <;> decide
  unfold showsIndex
  split
  next code hcode => exact absurd hcode (h code)
  next => simp [hplain]
  next => rfl

end Fields

section Rules

variable {names : List Text} {n : Node}

/-- The code that an interpolation has after the token is written. -/
def codeWithToken (names : List Text) (code : Text) : Text :=
  if !isSlotKey (readMember code) && names.contains (trim code) then indexToken else code

theorem bindingWithToken_code {code : Text} {b : Binding}
    (h : blockRule n = .ok (.interpolation code)) (hcode : b.code = .str code) :
    (bindingWithToken names n textKey b).code = .str (codeWithToken names code) := by
  have hshows : showsIndex n textKey b = !isSlotKey (readMember code) := by
    rw [showsIndex, h]
    rfl
  rw [bindingWithToken, hshows, codeWithToken, Binding.withToken, hcode]
  cases !isSlotKey (readMember code) with
  | false => exact hcode
  | true =>
    cases hname : names.contains (trim code) with
    | false => simpa only [hname, Bool.and_false, if_neg Bool.false_ne_true, if_true] using hcode
    | true => simp only [hname, Bool.and_true, if_true]

theorem bindsText_withTokens (names : List Text) {code : Text}
    (h : blockRule n = .ok (.interpolation code)) :
    BindsText (withTokens names n) (codeWithToken names code) ∧
      isPlaceholder (codeWithToken names code) = false := by
  obtain ⟨htext, hplaceholder⟩ := blockRule_eq_ok h
  obtain ⟨b, hb, hcode⟩ := htext.bound
  refine ⟨⟨?_, ?_, ?_, ⟨_, ?_, bindingWithToken_code h hcode⟩, ?_⟩, ?_⟩
  · rw [Node.isFragment, withTokens_name]
    exact htext.notFragment
  · rw [Node.isSlot, withTokens_name]
    exact htext.notSlot
  · rw [withTokens_properties]
    exact htext.noLiteral
  · rw [withTokens_binding?, hb, Option.map_some]
  · rw [codeWithToken]
    split
    next => decide
    next => exact htext.given
  · rw [codeWithToken]
    split
    next => decide
    next => exact hplaceholder

theorem blockRule_withTokens_interpolation {code : Text}
    (h : blockRule n = .ok (.interpolation code)) :
    blockRule (withTokens names n) = .ok (.interpolation (codeWithToken names code)) := by
  obtain ⟨htext, hplaceholder⟩ := bindsText_withTokens names h
  rw [htext.blockRule, hplaceholder]
  rfl

theorem blockRule_withTokens (h : ∀ code, blockRule n ≠ .ok (.interpolation code)) :
    blockRule (withTokens names n) = blockRule n := by
  refine blockRule_congr (withTokens_name names n) (by rw [withTokens_properties]) ?_
  rw [withTokens_binding?]
  have hid : bindingWithToken names n textKey = id := by
    funext b
    rw [bindingWithToken, showsIndex_textKey h, if_neg Bool.false_ne_true, id]
  rw [hid, Option.map_id_fun, id]

theorem canBeJoined_withTokens : canBeJoined (withTokens names n) = canBeJoined n := by
  by_cases h : ∃ code, blockRule n = .ok (.interpolation code)
  · obtain ⟨code, hcode⟩ := h
    rw [canBeJoined, canBeJoined, hcode, blockRule_withTokens_interpolation hcode]
  · rw [not_exists] at h
    rw [canBeJoined, canBeJoined, blockRule_withTokens h]

theorem joinBlocks_withTokens (sep : Text) (ns : List Node) (blocks : List Block) :
    joinBlocks sep (nodesWithTokens names ns) blocks = joinBlocks sep ns blocks := by
  have hall : (nodesWithTokens names ns).all canBeJoined = ns.all canBeJoined := by
    induction ns with
    | nil => rfl
    | cons n ns ih => rw [nodesWithTokens, List.all_cons, List.all_cons, canBeJoined_withTokens, ih]
  rw [joinBlocks, joinBlocks, hall]

end Rules

section Rendering

variable {names : List Text} {place : Place} {n : Node}

theorem interpolation_withTokens (h : ∀ name, name ∈ names ↔ name ∈ place.indexNames) (code : Text) :
    interpolation (codeWithToken names code) place.withoutIndexes = interpolation code place := by
  have hnames : names.contains (trim code) = place.indexNames.contains (trim code) := by
    rw [Bool.eq_iff_iff, List.contains_iff_mem, List.contains_iff_mem, h]
  have hnone : place.withoutIndexes.indexNames.contains (trim code) = false := rfl
  rw [codeWithToken, hnames]
  cases hslot : isSlotKey (readMember code) with
  | true =>
    rw [Bool.not_true, Bool.false_and, if_neg Bool.false_ne_true]
    unfold readMember at hslot
    unfold interpolation
    simp only [hslot, if_true]
  | false =>
    unfold readMember at hslot
    cases hindex : place.indexNames.contains (trim code) with
    | true =>
      have htoken : interpolation indexToken place.withoutIndexes =
        [.raw ("$\x7b" ++ indexToken ++ "\x7d")] := rfl
      rw [Bool.not_false, Bool.and_self, if_pos rfl, htoken]
      unfold interpolation
      simp only [hslot, hindex, if_neg Bool.false_ne_true, if_true]
    | false =>
      rw [Bool.and_false, if_neg Bool.false_ne_true]
      unfold interpolation
      simp only [hslot, hindex, hnone]

theorem isChecked_withTokens (key : Text) : isChecked (withTokens names n) key = isChecked n key := by
  unfold isChecked
  rw [withTokens_name, withTokens_has]

theorem emitAttribute_withToken (h : ∀ name, name ∈ names ↔ name ∈ place.indexNames) (key : Text)
    (b : Binding) : emitAttribute key (if isChecked n key then b else Binding.withToken names b)
        (withTokens names n) place.withoutIndexes = emitAttribute key b n place := by
  cases htag : isHtmlTag n.name with
  | error fault =>
    unfold emitAttribute
    rw [withTokens_name, htag]
    rfl
  | ok isTag =>
    rw [emitAttribute_eq htag,
      emitAttribute_eq (n := withTokens names n) ((congrArg _ (withTokens_name names n)).trans htag),
      isChecked_withTokens]
    cases isChecked n key with
    | true => rfl
    | false =>
      simp only [if_neg Bool.false_ne_true]
      unfold Binding.withToken
      cases hcode : b.code with
      | str code =>
        have hnames : names.contains (trim code) = place.indexNames.contains (trim code) := by
          rw [Bool.eq_iff_iff, List.contains_iff_mem, List.contains_iff_mem, h]
        simp only [hnames]
        cases hindex : place.indexNames.contains (trim code) with
        | true =>
          simp only [if_true, Json.textOr_str, ok_bind, hindex]
          rfl
        | false =>
          simp only [if_neg Bool.false_ne_true, hcode, Json.textOr_str, ok_bind, hindex]
          rfl
      | _ =>
        simp only [hcode]
        rfl

theorem emitBinding_withToken (h : ∀ name, name ∈ names ↔ name ∈ place.indexNames)
    (helement : blockRule n = .ok .element) (sources : List Text) (key : Text) (b : Binding) :
    emitBinding (withTokens names n) place.withoutIndexes sources key (bindingWithToken names n key b) =
      emitBinding n place sources key b := by
  unfold emitBinding
  rw [mode_bindingWithToken]
  by_cases hrule : BindingRule.of key b.mode = .plain
  · have hbinding : bindingWithToken names n key b =
        if isChecked n key then b else Binding.withToken names b := by
      rw [bindingWithToken, showsIndex, helement]
      cases isChecked n key <;> simp [hrule]
    rw [hrule, hbinding]
    exact emitAttribute_withToken h key b
  · have hbinding : bindingWithToken names n key b = b := by
      rw [bindingWithToken, showsIndex, helement]
      simp [hrule]
    rw [hbinding]
    cases hkind : BindingRule.of key b.mode with
    | event =>
      simp only
      unfold emitEvent suppressesEvents eventName
      rw [withTokens_name, withTokens_properties]
      rfl
    | plain => exact absurd hkind hrule
    | _ => rfl

theorem spreadSources_withTokens (helement : blockRule n = .ok .element)
    (bindings : Entries (Option Binding)) :
    spreadSources (bindings.map fun e => (e.1, e.2.map (bindingWithToken names n e.1))) =
      spreadSources bindings := by
  induction bindings with
  | nil => rfl
  | cons e bindings ih =>
    obtain ⟨key, _ | b⟩ := e
    · rfl
    have hspread : b.mode = .spread → bindingWithToken names n key b = b := fun hmode => by
      have hrule : BindingRule.of key b.mode ≠ .plain := by
        rw [BindingRule.of, if_pos hmode]
        decide
      rw [bindingWithToken, showsIndex, helement]
      simp [hrule]
    rw [List.map_cons, Option.map_some, spreadSources, spreadSources, mode_bindingWithToken, ih]
    by_cases hmode : b.mode = .spread
    · rw [if_pos hmode, if_pos hmode, hspread hmode]
    · rw [if_neg hmode, if_neg hmode]

theorem emitBindings_withTokens (h : ∀ name, name ∈ names ↔ name ∈ place.indexNames)
    (helement : blockRule n = .ok .element) (sources : List Text)
    (bindings : Entries (Option Binding)) :
    emitBindings (withTokens names n) place.withoutIndexes sources
        (bindings.map fun e => (e.1, e.2.map (bindingWithToken names n e.1))) =
      emitBindings n place sources bindings := by
  induction bindings with
  | nil => rfl
  | cons e bindings ih =>
    obtain ⟨key, _ | b⟩ := e
    · rfl
    rw [List.map_cons, Option.map_some, emitBindings, emitBindings,
      emitBinding_withToken h helement, ih]

theorem emitAll_withTokens (h : ∀ name, name ∈ names ↔ name ∈ place.indexNames)
    (helement : blockRule n = .ok .element) :
    emitAll (withTokens names n) place.withoutIndexes = emitAll n place := by
  unfold emitAll
  rw [withTokens_bindings, bindingsWithTokens, spreadSources_withTokens helement]
  exact bind_congr fun sources => by rw [emitBindings_withTokens h helement]

theorem loopPlace_withTokens (hloop : n.isLoop = true)
    (h : ∀ name, name ∈ names ↔ name ∈ place.indexNames) (name : Text) :
    name ∈ indexNamesBelow names n ↔ name ∈ (loopPlace n.scope place).indexNames := by
  unfold indexNamesBelow loopPlace
  rw [hloop]
  cases n.scope.indexName with
  | str index =>
    simp only [Place.withIndex, Place.inside]
    grind
  | _ => exact h name

theorem loopPlace_withoutIndexes (scope : Scope) :
    (loopPlace scope place).withoutIndexes = place.withoutIndexes.inside .loop := by
  unfold loopPlace
  split
  next =>
    simp only [Place.withIndex, Place.inside, Place.withoutIndexes]
    grind
  next => rfl

theorem loopPlace_scopeWithoutIndex (hloop : n.isLoop = true) :
    loopPlace (scopeWithoutIndex n) place.withoutIndexes = (loopPlace n.scope place).withoutIndexes := by
  rw [loopPlace_withoutIndexes, scopeWithoutIndex, if_pos hloop]
  rfl

theorem indexNamesBelow_of_not_loop (hloop : n.isLoop = false) : indexNamesBelow names n = names := by
  unfold indexNamesBelow
  rw [hloop]

theorem renderChildren_withTokens (sep : Text) {ns : List Node}
    (hns : renderNodes place.withoutIndexes (nodesWithTokens names ns) = renderNodes place ns) :
    renderChildren place.withoutIndexes sep (nodesWithTokens names ns) = renderChildren place sep ns := by
  rw [renderChildren, renderChildren, hns]
  exact bind_congr fun blocks => joinBlocks_withTokens sep ns blocks

/-- One node, when what stands below it is rendered the same. -/
theorem renderNode_step (h : ∀ name, name ∈ names ↔ name ∈ place.indexNames)
    (hchildren : ∀ (names' : List Text) (place' : Place),
      (∀ name, name ∈ names' ↔ name ∈ place'.indexNames) →
      renderNodes place'.withoutIndexes (nodesWithTokens names' n.children) =
        renderNodes place' n.children)
    (hbranch : ∀ location, renderBranch (place.inside location).withoutIndexes
        (branchWithTokens names n.elseBranch) = renderBranch (place.inside location) n.elseBranch) :
    renderNode place.withoutIndexes (withTokens names n) = renderNode place n := by
  cases hrule : blockRule n with
  | error fault =>
    have htext : ∀ code, blockRule n ≠ .ok (.interpolation code) := fun code => by simp [hrule]
    rw [renderNode_eq_renderBy, renderNode_eq_renderBy, blockRule_withTokens htext, hrule]
    rfl
  | ok rule =>
    have hinside : n.isLoop = false → ∀ location,
        renderChildren (place.withoutIndexes.inside location) "\n" (withTokens names n).children =
          renderChildren (place.inside location) "\n" n.children := fun hloop location => by
      rw [withTokens_children, indexNamesBelow_of_not_loop hloop]
      have hnodes := hchildren names (place.inside location) h
      exact renderChildren_withTokens "\n" hnodes
    by_cases htext : ∃ code, rule = .interpolation code
    · obtain ⟨code, rfl⟩ := htext
      rw [renderNode_of_rule hrule, renderNode_of_rule (blockRule_withTokens_interpolation hrule),
        renderBy, renderBy, interpolation_withTokens h]
    have hsame : blockRule (withTokens names n) = .ok rule := by
      rw [blockRule_withTokens fun code => by grind, hrule]
    rw [renderNode_of_rule hrule, renderNode_of_rule hsame]
    -- Only interpolations and elements show an index, so elsewhere the bindings stay.
    have hbindings : rule ≠ .element → (withTokens names n).bindings = n.bindings := fun hne => by
      rw [withTokens_bindings]
      refine bindingsWithTokens_eq_self names fun key b => ?_
      unfold showsIndex
      grind
    have hbinding : rule ≠ .element → ∀ key, (withTokens names n).binding? key = n.binding? key :=
      fun hne key => by rw [Node.binding?, Node.binding?, hbindings hne]
    cases rule with
    | fragment => exact hinside (isLoop_eq_false hrule (by simp)) .fragment
    | slot =>
      have hattributes : slotAttributes (withTokens names n) = slotAttributes n := by
        rw [slotAttributes, slotAttributes, hbinding (by simp), withTokens_properties]
      rw [renderBy, renderBy, hattributes, hbindings (by simp),
        hinside (isLoop_eq_false hrule (by simp))]
    | loop =>
      have hloop := blockRule_eq_ok hrule
      have hcollection : loopCollection (withTokens names n) = loopCollection n := by
        rw [loopCollection, loopCollection, hbinding (by simp)]
      have hhead : ∀ collection, loopHead (withTokens names n) collection = loopHead n collection :=
        fun collection => by
          rw [loopHead, loopHead, withTokens_scope, scopeWithoutIndex, if_pos hloop]
      have hbody : renderChildren (loopPlace (withTokens names n).scope place.withoutIndexes) "\n"
            (withTokens names n).children = renderChildren (loopPlace n.scope place) "\n" n.children := by
        rw [withTokens_scope, withTokens_children, loopPlace_scopeWithoutIndex hloop]
        exact renderChildren_withTokens _ (hchildren _ _ (loopPlace_withTokens hloop h))
      simp only [renderBy, hcollection, hhead, hbody]
    | conditional =>
      have hpositive : ∀ body, positiveBlock (withTokens names n) body = positiveBlock n body :=
        fun body => by rw [positiveBlock, positiveBlock, conditionText, conditionText, hbinding (by simp)]
      have hnegative : renderBranch (place.withoutIndexes.inside .otherwise)
          (withTokens names n).elseBranch = renderBranch (place.inside .otherwise) n.elseBranch := by
        rw [withTokens_elseBranch]
        exact hbranch .otherwise
      simp only [renderBy, hinside (isLoop_eq_false hrule (by simp)), hpositive, hnegative]
    | element =>
      have hattributes : propertyAttributes (withTokens names n) = propertyAttributes n := by
        rw [propertyAttributes, propertyAttributes, withTokens_properties]
      simp only [renderBy, withTokens_name, emitAll_withTokens h hrule, hattributes,
        hinside (isLoop_eq_false hrule (by simp))]
    | interpolation code => exact absurd ⟨code, rfl⟩ htext
    | _ => rfl

end Rendering

mutual

theorem renderNode_withTokens {names : List Text} {place : Place}
    (h : ∀ name, name ∈ names ↔ name ∈ place.indexNames) (n : Node) :
    renderNode place.withoutIndexes (withTokens names n) = renderNode place n := by
  match n with
  | ⟨name, properties, bindings, children, scope, elseBranch, metadata⟩ =>
    have hinside : ∀ location name', name' ∈ names ↔ name' ∈ (place.inside location).indexNames :=
      fun _ => h
    exact renderNode_step h (fun names' place' h' => renderNodes_withTokens h' children)
      fun location => renderBranch_withTokens (hinside location) elseBranch

theorem renderNodes_withTokens {names : List Text} {place : Place}
    (h : ∀ name, name ∈ names ↔ name ∈ place.indexNames) (ns : List Node) :
    renderNodes place.withoutIndexes (nodesWithTokens names ns) = renderNodes place ns := by
  match ns with
  | [] => rfl
  | n :: rest =>
    rw [nodesWithTokens, renderNodes, renderNodes, renderNode_withTokens h n,
      renderNodes_withTokens h rest]

theorem renderBranch_withTokens {names : List Text} {place : Place}
    (h : ∀ name, name ∈ names ↔ name ∈ place.indexNames) (branch : Option Node) :
    renderBranch place.withoutIndexes (branchWithTokens names branch) = renderBranch place branch := by
  match branch with
  | none => rfl
  | some n => rw [branchWithTokens, renderBranch, renderBranch, renderNode_withTokens h n]

end

/-- A tree rendered inside loops is the tree with their indexes written into it, rendered as if there
    were no loops around it and no indexes in it. -/
theorem renderNode_eq_withTokens (place : Place) (n : Node) :
    renderNode place n = renderNode place.withoutIndexes (withTokens place.indexNames n) :=
  (renderNode_withTokens (fun _ => Iff.rfl) n).symm

end ElementCompiler.Markup
