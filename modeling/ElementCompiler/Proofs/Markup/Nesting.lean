import ElementCompiler.Proofs.Component.WellFormed
import ElementCompiler.Proofs.Markup.Rendering
import ElementCompiler.Proofs.Markup.Shown

set_option autoImplicit false

/-!
Rendered markup is well nested: every tag that opens is closed by its own tag, and each `else`
region follows the region of its condition.
-/

namespace ElementCompiler

open Attempt Text Markup

/-- No text of the node holds a part of a tag, and its name can be that of a tag. -/
structure Node.IsTagFree (n : Node) : Prop where
  name : ∃ s, n.name = .str s ∧ IsTagName s
  properties : ∀ p ∈ n.properties, TagFree p.1 ∧ p.2.IsTagFree
  bindings : ∀ b ∈ n.bindings, TagFree b.1 ∧ ∃ x, b.2 = some x ∧ x.IsTagFree
  forName : n.scope.forName = .null ∨ n.scope.forName.IsTagFree

theorem Node.IsTagFree.hasTexts {n : Node} (h : n.IsTagFree) : n.HasTexts where
  name := h.name.imp fun _ hs => hs.1
  properties := fun p hp => (h.properties p hp).2.imp fun _ hs => hs.1
  bindings := fun b hb => (h.bindings b hb).2.imp fun _ hx => ⟨hx.1, hx.2.hasTexts⟩

theorem Node.IsTagFree.isTagName {n : Node} (h : n.IsTagFree) {name : Text} (hname : n.name = .str name) :
    IsTagName name := by
  obtain ⟨s, hs, htag⟩ := h.name
  obtain rfl := Json.str.inj (hs.symm.trans hname)
  exact htag

theorem Node.IsTagFree.lacks {n : Node} (h : n.IsTagFree) : n.Lacks isAngle where
  properties := h.properties
  bindings := fun b hb => (h.bindings b hb).imp_right fun hx =>
    hx.imp fun _ hx => ⟨hx.1, hx.2.lacks⟩
  forName := h.forName

namespace Markup

mutual

/-- The conditions of the conditionals below a node that are rendered with an else branch, in the
    order of their `else` regions. -/
def elseConditions : Node → List Text
  | ⟨name, properties, bindings, children, scope, elseBranch, metadata⟩ =>
    let n : Node := ⟨name, properties, bindings, children, scope, elseBranch, metadata⟩
    match blockRule n with
    | .ok .fragment | .ok .slot | .ok .loop => childConditions children
    | .ok .conditional => childConditions children ++ branchConditions (conditionText n) elseBranch
    | .ok .element => if Node.isVoid n then [] else childConditions children
    | _ => []

def childConditions : List Node → List Text
  | [] => []
  | n :: rest => elseConditions n ++ childConditions rest

def branchConditions (condition : Text) : Option Node → List Text
  | none => []
  | some n => condition :: elseConditions n

end

section Pieces

variable {groups : List (List Piece)} {g : List Piece} {owners others : List Text}

theorem isTagName_templateTag : IsTagName templateTag := by
  unfold IsTagName
  decide

theorem tagFree_newline : TagFree (ofString "\n") := by decide

theorem isNested_nil : IsNested (piecesText []) [] := isNested_text tagFree_nil

theorem isNested_joinPieces_cons (hg : IsNested (piecesText g) owners)
    (hgroups : IsNested (piecesText (joinPieces "\n" groups)) others) :
    IsNested (piecesText (joinPieces "\n" (g :: groups))) (owners ++ others) := by
  cases groups with
  | nil => simpa [joinPieces, piecesText] using hg.append hgroups
  | cons h hs =>
    have hnewline := (isNested_text tagFree_newline).append hgroups
    simpa [joinPieces, piecesText, piecesText_append, Piece.text] using hg.append hnewline

theorem isNested_joinPieces_raw {codes : List Text} (hcodes : ∀ code ∈ codes, TagFree code)
    (hgroups : IsNested (piecesText (joinPieces "\n" groups)) owners) :
    IsNested (piecesText (joinPieces "\n" (codes.map (fun code => [.raw code]) ++ groups)))
      owners := by
  induction codes with
  | nil => exact hgroups
  | cons code codes ih =>
    rw [List.forall_mem_cons] at hcodes
    have hraw : IsNested (piecesText [.raw code]) [] := by
      simpa [piecesText, Piece.text] using isNested_text hcodes.1
    exact isNested_joinPieces_cons hraw (ih hcodes.2)

theorem isNested_raws {codes : List Text} (hcodes : ∀ code ∈ codes, TagFree code) :
    IsNested (piecesText (codes.map .raw)) [] := by
  induction codes with
  | nil => exact isNested_nil
  | cons code codes ih =>
    rw [List.forall_mem_cons] at hcodes
    exact (isNested_text hcodes.1).append (ih hcodes.2)

theorem tag_elseTag (r : TagReader) : r.tag elseTag = some (r.enter elseTag) := by
  unfold TagReader.tag
  rw [if_neg (by decide), if_neg (by decide)]

theorem read_elseTag {r : TagReader} {content : Text} (hr : r.inside = none)
    (hclosed : r.closed = some content) (hgap : r.gap = ofString "\n") :
    r.read (Piece.opening templateTag [⟨"else", none⟩]).text =
      some ⟨elseTag :: r.openTags, none, [], none, r.followed ++ [some content]⟩ := by
  have htext : (Piece.opening templateTag [⟨"else", none⟩]).text =
      .char '<' :: (elseTag ++ [.char '>']) := by decide
  rw [htext, TagReader.read_tag hr (by decide), tag_elseTag]
  simp [TagReader.enter, hclosed, hgap]

/-- An `else` region right after the region of its condition. -/
theorem isNested_else {content s : Text} {body : List Piece} (hs : IsRegion content s owners)
    (hbody : IsNested (piecesText body) others) :
    IsNested (s ++ piecesText (.raw "\n" :: element templateTag [⟨"else", none⟩]
      (.raw "\n" :: (body ++ [.raw "\n"])))) (owners ++ content :: others) := by
  intro r hr
  obtain ⟨r', hread, hreturns, hclosed, hgap⟩ := hs r hr
  have hnewline := TagReader.read_text hreturns.inside tagFree_newline
  have hopen := read_elseTag (r := { r' with gap := r'.gap ++ ofString "\n" }) hreturns.inside
    hclosed (by simp [hgap])
  have hinner : IsNested (ofString "\n" ++ (piecesText body ++ ofString "\n")) others := by
    have hend := hbody.append (isNested_text tagFree_newline)
    simpa using (isNested_text tagFree_newline).append hend
  obtain ⟨r'', hread', hreturns'⟩ :=
    hinner ⟨elseTag :: r'.openTags, none, [], none, r'.followed ++ [some content]⟩ rfl
  have hclose := read_closing hreturns'.inside isTagName_templateTag hreturns'.openTags
    (by decide)
  refine ⟨⟨r'.openTags, some elseTag, [], none, r''.followed⟩, ?_, hreturns.openTags, rfl, ?_⟩
  · have htext : s ++ piecesText (.raw "\n" :: element templateTag [⟨"else", none⟩]
        (.raw "\n" :: (body ++ [.raw "\n"]))) =
        s ++ (ofString "\n" ++ ((Piece.opening templateTag [⟨"else", none⟩]).text ++
          ((ofString "\n" ++ (piecesText body ++ ofString "\n")) ++
            (Piece.closing templateTag).text))) := by
      simp only [element, piecesText, piecesText_append, Piece.text, List.cons_append,
        List.append_assoc, ofString_empty, List.nil_append, List.append_nil]
    rw [htext, TagReader.read_append, hread, Option.bind_some, TagReader.read_append, hnewline,
      Option.bind_some, TagReader.read_append, hopen, Option.bind_some, TagReader.read_append,
      hread', Option.bind_some, hclose]
  · simp [hreturns'.followed, hreturns.followed]

end Pieces

section Rules

variable {n : Node} {place : Place}

theorem isTagName_elementSelector {name : Text} (h : IsTagName name) :
    IsTagName (elementSelector name) := by
  unfold elementSelector
  extract_lets stripped
  split
  next =>
    exact fun c hc => h c (trim_subset name hc)
  next => exact isTagName_kebabFrom .start stripped

theorem isNested_slotBody {nested : List Json} {children pieces : List Piece} {owners : List Text}
    (hnested : ∀ code ∈ nested, code.IsTagFree) (hchildren : IsNested (piecesText children) owners)
    (h : slotBody nested children = .ok pieces) : IsNested (piecesText pieces) owners := by
  obtain ⟨codes, hcodes, h⟩ := bind_eq_ok.mp h
  obtain rfl := Except.ok.inj h
  have hfree := Json.tagFree_of_mapM_textOr hnested hcodes
  split
  next hempty =>
    rw [List.isEmpty_iff.mp hempty] at hchildren
    have hraws : IsNested
        (piecesText (joinPieces "\n" (codes.map (fun code => [.raw code]) ++ []))) owners :=
      isNested_joinPieces_raw hfree hchildren
    simpa using hraws
  next => exact isNested_joinPieces_raw hfree hchildren

theorem isTagName_slot : IsTagName (ofString "slot") := by
  unfold IsTagName
  decide

theorem isNested_interpolation {code : Text} (hcode : TagFree code) :
    IsNested (piecesText (interpolation code place)) [] := by
  have hraw : ∀ {s : Text}, TagFree s → IsNested (piecesText [.raw s]) [] := fun hs => by
    simpa [piecesText, Piece.text] using isNested_text hs
  unfold interpolation
  extract_lets stripped member
  split
  next =>
    have hselector : TagFree (slotSelector member) := (isTagName_kebabFrom _ _).tagFree
    have hbefore : TagFree (ofString "[") := by decide
    have hafter : TagFree (ofString "]") := by decide
    refine (isRegion_element isTagName_slot ?_ isNested_nil).isNested
    simpa using Attribute.isQuoted_of (by decide) (by simp [hselector, hbefore, hafter])
  next =>
    split
    next => exact hraw (by decide)
    next => exact hraw (by simp [hcode])

/-- The tag of the region that is shown under a condition. -/
def conditionTag (condition : Text) : Text := "template if.bind=\"" ++ condition ++ "\""

theorem isRegion_conditional {condition : Text} {body : List Piece} {owners : List Text}
    (hcondition : TagFree condition) (hbody : IsNested (piecesText body) owners) :
    IsRegion (conditionTag condition)
      (piecesText (element templateTag [.of "if.bind" condition] body)) owners := by
  have htag : tagContent templateTag [.of "if.bind" condition] = conditionTag condition := by
    simp [tagContent, attributesText, Attribute.text, Attribute.of, conditionTag, templateTag,
      ofString]
  rw [← htag]
  refine isRegion_element isTagName_templateTag ?_ hbody
  simpa using Attribute.isQuoted_of (by decide) hcondition

theorem isNested_elementBlock {name : Text} {attributes : List Attribute} {emitted : Emitted}
    {children : Block} {owners : List Text} (hname : IsTagName name)
    (hattributes : ∀ a ∈ attributes, a.IsQuoted) (hemitted : emitted.IsTagFree)
    (hchildren : IsNested children.text owners) :
    IsNested (elementBlock name attributes emitted children).text owners := by
  have hquoted : ∀ a ∈ attributes ++ emitted.attributes, a.IsQuoted := fun a ha =>
    (List.mem_append.mp ha).elim (hattributes a) (hemitted.attributes a)
  have hend := hchildren.append (isNested_text tagFree_newline)
  have hbody : IsNested (piecesText (emitted.deferredSlots.map .raw ++ children.pieces ++
      [.raw "\n"])) owners := by
    have hall := (isNested_raws hemitted.slots).append hend
    simpa [piecesText_append, piecesText, Piece.text, Block.text] using hall
  have hregion := (isRegion_element hname hquoted hbody).isNested
  simpa [elementBlock, element, Block.text] using hregion

end Rules

section Nodes

theorem joinBlocks_pieces {sep : Text} {nodes : List Node} {blocks : List Block} {b : Block}
    (h : joinBlocks sep nodes blocks = .ok b) :
    b.pieces = joinPieces sep (blocks.map Block.pieces) := by
  unfold joinBlocks at h
  split at h
  · rw [← Except.ok.inj h]
  · cases h

/-- The block is well nested, and its `else` regions are those of the node. -/
def Nests (n : Node) (b : Block) : Prop := IsNested b.text ((elseConditions n).map conditionTag)

variable {n : Node} {place : Place} {b : Block}

theorem elseConditions_of_rule {rule : BlockRule} (h : blockRule n = .ok rule) :
    elseConditions n = match rule with
      | .fragment | .slot | .loop => childConditions n.children
      | .conditional => childConditions n.children ++ branchConditions (conditionText n) n.elseBranch
      | .element => if Node.isVoid n then [] else childConditions n.children
      | _ => [] := by
  cases n
  cases rule <;> simp only [elseConditions, h]

theorem isNested_joinsBlocks {ns : List Node} (h : JoinsBlocks Nests "\n" ns b) :
    IsNested b.text ((childConditions ns).map conditionTag) := by
  obtain ⟨blocks, hblocks, h⟩ := h
  rw [Block.text, joinBlocks_pieces h]
  clear h
  induction hblocks with
  | nil => exact isNested_nil
  | cons hfirst _ ih =>
    rw [childConditions, List.map_append]
    exact isNested_joinPieces_cons hfirst ih

theorem isNested_withBranch {branch : Option Node} {positive : Block} {negative : Option Block}
    {condition : Text} {owners : List Text}
    (hpositive : IsRegion (conditionTag condition) positive.text owners)
    (hnegative : Option.Rel Nests branch negative) :
    IsNested (withBranch positive negative).text
      (owners ++ (branchConditions condition branch).map conditionTag) := by
  cases hnegative with
  | none => simpa [branchConditions, withBranch] using hpositive.isNested
  | some hb =>
    have helse := isNested_else hpositive hb
    simpa [branchConditions, withBranch, Block.text, piecesText_append] using helse

/-- One node, when what is rendered below it is well nested. -/
theorem nests_of_givesBlock {rule : BlockRule} (hfree : n.IsTagFree) (hrule : blockRule n = .ok rule)
    (h : GivesBlock (fun _ => Nests) place n rule b) : Nests n b := by
  have hlacks := hfree.lacks
  have hshown := lacks_blockRule hlacks hrule
  have hattributes := isQuoted_propertyAttributes hfree.properties
  rw [Nests, elseConditions_of_rule hrule]
  cases h with
  | fragment hbody => exact isNested_joinsBlocks hbody
  | slot hattributes hnested hbody hpieces =>
    have hinner := isNested_slotBody (lacks_nestedCodes hlacks.bindings hnested)
      (isNested_joinsBlocks hbody) hpieces
    have hquoted := fun a ha => (lacks_slotAttributes isAngular_isAngle hattributes a ha).isQuoted
    exact (isRegion_element isTagName_slot hquoted hinner).isNested
  | childrenPlaceholder => exact (isRegion_element isTagName_slot (by simp) isNested_nil).isNested
  | @literalText value =>
    have htext : TagFree value.display := Json.IsTagFree.display hshown
    simpa [Block.text, piecesText, Piece.text] using isNested_text htext
  | interpolation => exact isNested_interpolation hshown
  | loop hcollection hbody =>
    refine (isRegion_element isTagName_templateTag ?_ (isNested_joinsBlocks hbody)).isNested
    exact List.forall_mem_singleton.mpr
      (lacks_loopHead isAngular_isAngle hlacks hcollection).isQuoted
  | conditional hbody hbranch =>
    rw [List.map_append]
    exact isNested_withBranch (isRegion_conditional (lacks_conditionText isAngular_isAngle hlacks)
      (isNested_joinsBlocks hbody)) hbranch
  | void hname hemitted hvoid =>
    have hselector := isTagName_elementSelector (hfree.isTagName hname)
    have hemits := isTagFree_emitAll hfree.bindings hemitted
    have halone := isNested_alone hselector fun a ha =>
      (List.mem_append.mp ha).elim (hattributes a) (hemits.attributes a)
    simpa [hvoid, Block.text, piecesText] using halone
  | element hname hemitted hvoid hbody =>
    have hselector := isTagName_elementSelector (hfree.isTagName hname)
    have hemits := isTagFree_emitAll hfree.bindings hemitted
    simpa [hvoid] using isNested_elementBlock hselector hattributes hemits (isNested_joinsBlocks hbody)

theorem isNested_renderNode (hn : ∀ m ∈ n.subtree, m.IsTagFree) (h : renderNode place n = .ok b) :
    IsNested b.text ((elseConditions n).map conditionTag) :=
  renderNode_induction (motive := fun _ => Nests) nests_of_givesBlock hn h

theorem rendered_markup_nests {path : Text} {n : Node} (hvalid : checkNode path n = .ok ())
    (hfree : ∀ m ∈ n.subtree, m.IsTagFree) (place : Place) :
    ∃ b, renderNode place n = .ok b ∧ ∃ r, TagReader.start.read b.text = some r ∧
      r.openTags = [] ∧ r.inside = none ∧
      r.followed = (elseConditions n).map fun condition => some (conditionTag condition) := by
  have hrenderable : ∀ m ∈ n.subtree, IsRenderable m := fun m hm =>
    ⟨(hfree m hm).hasTexts, iterates_of_checkNode hvalid m hm⟩
  obtain ⟨b, hb⟩ := exists_renderNode place n hrenderable
  obtain ⟨r, hread, hreturns⟩ := isNested_renderNode hfree hb TagReader.start rfl
  refine ⟨b, hb, r, hread, hreturns.openTags, hreturns.inside, ?_⟩
  rw [hreturns.followed, List.map_map]
  rfl

def textNode (value : Text) : Node := ⟨.str "Text", [(textKey, .str value)], [], [], .empty, none, []⟩

def pressButton : Node :=
  ⟨.str "Button", [("title", .str "more")], [("onClick", some (.ofCode (.str "press()") .normal))],
    [textNode "Press"], .empty, none, []⟩

/-- A button that is shown when something is open, else a text. -/
def toggle : Node :=
  ⟨.str "Show", [], [("when", some (.ofCode (.str "open") .normal))], [pressButton], .empty,
    some (textNode "Closed"), []⟩

theorem ofCode_isTagFree {code : Text} (h : TagFree code) :
    (Binding.ofCode (.str code) .normal).IsTagFree where
  code := ⟨code, rfl, h⟩
  rawCode := Or.inr ⟨code, rfl, h⟩
  arguments := Or.inl rfl

theorem textNode_isTagFree {value : Text} (h : TagFree value) : (textNode value).IsTagFree where
  name := ⟨_, rfl, by unfold IsTagName; decide⟩
  properties := by simpa [textNode] using ⟨by decide, value, rfl, h⟩
  bindings := by simp [textNode]
  forName := Or.inl rfl

theorem toggle_isTagFree : ∀ m ∈ toggle.subtree, m.IsTagFree := by
  have hsubtree : toggle.subtree = [toggle, textNode "Closed", pressButton, textNode "Press"] := rfl
  have hpress := ofCode_isTagFree (by decide : TagFree (ofString "press()"))
  have hopen := ofCode_isTagFree (by decide : TagFree (ofString "open"))
  rw [hsubtree]
  simp only [List.forall_mem_cons, List.not_mem_nil, false_implies, implies_true, and_true]
  refine ⟨⟨⟨_, rfl, ?_⟩, by simp [toggle], ?_, Or.inl rfl⟩, textNode_isTagFree (by decide),
    ⟨⟨_, rfl, ?_⟩, ?_, ?_, Or.inl rfl⟩, textNode_isTagFree (by decide)⟩
  · unfold IsTagName
    decide
  · simpa [toggle] using ⟨by decide, hopen⟩
  · unfold IsTagName
    decide
  · simpa [pressButton] using ⟨by decide, ofString "more", rfl, by decide⟩
  · simpa [pressButton] using ⟨by decide, hpress⟩

theorem rendered_markup_nests_toggle :
    checkNode [] toggle = .ok () ∧ (∀ m ∈ toggle.subtree, m.IsTagFree) ∧
      ∃ b, renderNode .start toggle = .ok b ∧ ∃ r, TagReader.start.read b.text = some r ∧
        r.openTags = [] ∧ r.inside = none ∧ r.followed = [some (conditionTag "open")] :=
  ⟨rfl, toggle_isTagFree, @rendered_markup_nests [] toggle rfl toggle_isTagFree .start⟩

end Nodes

end Markup
end ElementCompiler
