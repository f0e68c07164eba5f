import ElementCompiler.Import.Classification
import ElementCompiler.Proofs.Markup.Nesting
import ElementCompiler.Proofs.Text.Trim

set_option autoImplicit false

/-!
The closing tags in rendered markup. When no text of a node holds the character that opens a tag, a
closing tag is found in the markup exactly when the rule of a node that is rendered closes it.
-/

namespace ElementCompiler

open Attempt Text Markup

namespace Markup

/-- The character that opens a tag. -/
def isOpening (c : CodePoint) : Bool := c == '<'

theorem isAngular_isOpening : IsAngular isOpening := fun c h => by
  rw [isAngle, Bool.or_eq_true]
  exact .inl h

theorem isAngular_isClosing : IsAngular fun c => c == .char '>' := fun c h => by
  rw [isAngle, Bool.or_eq_true]
  exact .inr h

section Occurrences

variable {pat a b k t : Text}

theorem occursIn_opening (ha : Lacks isOpening a) (b : Text) :
    occursIn (.char '<' :: pat) (a ++ b) = occursIn (.char '<' :: pat) b := by
  induction a with
  | nil => rfl
  | cons c cs ih =>
    rw [lacks_cons] at ha
    have hc : CodePoint.char '<' ≠ c := by
      rintro rfl
      exact absurd ha.1 (by decide)
    have hstart : startsWith (.char '<' :: pat) (c :: (cs ++ b)) = false := by
      rw [startsWith, after?, if_neg hc]
      rfl
    rw [List.cons_append, occursIn, hstart, ih ha.2, Bool.false_or]

theorem startsWith_closing (hk : Lacks (· == .char '>') k) (ht : Lacks (· == .char '>') t) :
    startsWith (k ++ [.char '>']) (t ++ .char '>' :: b) = true ↔ k = t := by
  induction k generalizing t with
  | nil =>
    cases t with
    | nil => simp [startsWith, after?]
    | cons c cs =>
      have hc : CodePoint.char '>' ≠ c := by
        rintro rfl
        exact absurd (lacks_cons.mp ht).1 (by decide)
      simp [startsWith, after?, hc]
  | cons d ds ih =>
    rw [lacks_cons] at hk
    cases t with
    | nil =>
      have hd : d ≠ CodePoint.char '>' := by
        rintro rfl
        exact absurd hk.1 (by decide)
      simp [startsWith, after?, hd]
    | cons c cs =>
      have hstep := ih hk.2 (lacks_cons.mp ht).2
      by_cases hcd : d = c
      · subst hcd
        simpa [startsWith, after?] using hstep
      · simp [startsWith, after?, hcd]

end Occurrences

section Pieces

/-- The texts of the piece open no tag, and what it opens is not read as a closing tag. -/
def Piece.IsClear : Piece → Prop
  | .raw text => Lacks isOpening text
  | .opening tag attributes | .alone tag attributes =>
    Lacks isOpening (tag ++ attributesText attributes) ∧
      (tag ++ attributesText attributes).head? ≠ some (.char '/')
  | .closing tag => TagFree tag

/-- No closing tag begins at a tag whose content does not begin with a slash. -/
theorem occursIn_tag {pat content mark : Text} (hcontent : Lacks isOpening content)
    (hhead : content.head? ≠ some (.char '/')) {m : CodePoint} (hm : m ≠ .char '/')
    (hmark : Lacks isOpening (m :: mark)) (rest : Text) :
    occursIn (.char '<' :: .char '/' :: pat) (.char '<' :: (content ++ m :: mark ++ rest)) =
      occursIn (.char '<' :: .char '/' :: pat) rest := by
  have hstart : startsWith (.char '<' :: .char '/' :: pat)
      (.char '<' :: (content ++ m :: mark ++ rest)) = false := by
    cases content with
    | nil => simp [startsWith, after?, Ne.symm hm]
    | cons c cs =>
      have hc : CodePoint.char '/' ≠ c := fun hc => hhead (congrArg some hc.symm)
      simp [startsWith, after?, hc]
  rw [occursIn, hstart, Bool.false_or, occursIn_opening (lacks_append.mpr ⟨hcontent, hmark⟩)]

theorem closing_text (k : Text) :
    (Piece.closing k).text = .char '<' :: .char '/' :: (k ++ [.char '>']) := by
  simp [Piece.text, ofString]

variable {ps : List Piece}

/-- Among clear pieces a closing tag is found exactly where it is a piece. -/
theorem occursIn_piecesText {k : Text} (hk : TagFree k) (hps : ∀ p ∈ ps, p.IsClear) :
    occursIn (Piece.closing k).text (piecesText ps) = true ↔ .closing k ∈ ps := by
  induction ps with
  | nil => simp [piecesText, closing_text, occursIn]
  | cons p ps ih =>
    rw [List.forall_mem_cons] at hps
    have hrest := ih hps.2
    rw [piecesText, List.mem_cons]
    rw [closing_text] at hrest ⊢
    cases p with
    | raw text =>
      rw [Piece.text, occursIn_opening hps.1, hrest]
      simp
    | opening tag attributes =>
      have htext : (Piece.opening tag attributes).text =
          .char '<' :: (tag ++ attributesText attributes ++ [.char '>']) := by
        simp [Piece.text, ofString]
      rw [htext, List.cons_append, occursIn_tag hps.1.1 hps.1.2 (by decide)
        (by simp [isOpening]), hrest]
      simp
    | alone tag attributes =>
      have htext : (Piece.alone tag attributes).text =
          .char '<' :: (tag ++ attributesText attributes ++ [.char ' ', .char '/', .char '>']) := by
        simp [Piece.text, ofString]
      rw [htext, List.cons_append, occursIn_tag hps.1.1 hps.1.2 (by decide)
        (by simp [isOpening]), hrest]
      simp
    | closing tag =>
      have hstart := startsWith_closing (b := piecesText ps) (isAngular_isClosing.lacks hk)
        (isAngular_isClosing.lacks hps.1)
      have hrun : Lacks isOpening (.char '/' :: (tag ++ [.char '>'])) :=
        lacks_cons.mpr ⟨rfl, lacks_append.mpr ⟨isAngular_isOpening.lacks hps.1, by simp [isOpening]⟩⟩
      have hafter : startsWith (.char '<' :: .char '/' :: (k ++ [.char '>']))
          (.char '<' :: (.char '/' :: (tag ++ [.char '>']) ++ piecesText ps)) =
            startsWith (k ++ [.char '>']) (tag ++ .char '>' :: piecesText ps) := by
        simp [startsWith, after?]
      rw [closing_text, List.cons_append, occursIn, Bool.or_eq_true, hafter, hstart,
        occursIn_opening hrun, hrest]
      simp

end Pieces

/-- The pieces are clear, and these are the tags that they close. -/
structure ClosesTags (ps : List Piece) (closed : Text → Prop) : Prop where
  clear : ∀ p ∈ ps, p.IsClear
  closing : ∀ k, .closing k ∈ ps ↔ closed k

section Tags

variable {ps qs : List Piece} {closed closed' : Text → Prop} {tag : Text}
  {attributes : List Attribute}

theorem ClosesTags.congr (h : ClosesTags ps closed) (hiff : ∀ k, closed k ↔ closed' k) :
    ClosesTags ps closed' := ⟨h.clear, fun k => (h.closing k).trans (hiff k)⟩

theorem ClosesTags.append (h : ClosesTags ps closed) (h' : ClosesTags qs closed') :
    ClosesTags (ps ++ qs) fun k => closed k ∨ closed' k where
  clear := List.forall_mem_append.mpr ⟨h.clear, h'.clear⟩
  closing k := by rw [List.mem_append, h.closing, h'.closing]

theorem closesTags_nil : ClosesTags [] fun _ => False :=
  ⟨List.forall_mem_nil _, fun _ => by simp⟩

theorem ClosesTags.raw {text : Text} (htext : Lacks isOpening text) (h : ClosesTags ps closed) :
    ClosesTags (.raw text :: ps) closed where
  clear := List.forall_mem_cons.mpr ⟨htext, h.clear⟩
  closing k := by simp [h.closing k]

theorem closesTags_raws {codes : List Text} (hcodes : ∀ code ∈ codes, Lacks isOpening code)
    (h : ClosesTags ps closed) : ClosesTags (codes.map .raw ++ ps) closed := by
  induction codes with
  | nil => exact h
  | cons code codes ih =>
    rw [List.forall_mem_cons] at hcodes
    exact (ih hcodes.2).raw hcodes.1

theorem lacks_newline : Lacks isOpening (ofString "\n") :=
  isAngular_isOpening.lacks tagFree_newline

theorem ClosesTags.joinPieces_cons {groups : List (List Piece)} (h : ClosesTags ps closed)
    {sep : Text} (hsep : Lacks isOpening sep) (h' : ClosesTags (joinPieces sep groups) closed') :
    ClosesTags (joinPieces sep (ps :: groups)) fun k => closed k ∨ closed' k := by
  cases groups with
  | nil =>
    have hnone : ∀ k, ¬ closed' k := fun k hk => List.not_mem_nil ((h'.closing k).mpr hk)
    exact h.congr fun k => by simp [hnone k]
  | cons g gs => exact h.append (h'.raw hsep)

theorem closesTags_alone (h : (Piece.alone tag attributes).IsClear) :
    ClosesTags [.alone tag attributes] fun _ => False where
  clear := List.forall_mem_singleton.mpr h
  closing k := by simp

theorem closesTags_element (h : (Piece.opening tag attributes).IsClear) (htag : TagFree tag)
    (hbody : ClosesTags ps closed) :
    ClosesTags (element tag attributes ps) fun k => k = tag ∨ closed k where
  clear := List.forall_mem_cons.mpr ⟨h, List.forall_mem_append.mpr
    ⟨hbody.clear, List.forall_mem_singleton.mpr htag⟩⟩
  closing k := by simp [element, hbody.closing k, or_comm]

/-- A text that can be the name of a tag: it holds no part of a tag and is not read as an end. -/
structure IsTagStart (s : Text) : Prop where
  tagFree : TagFree s
  head : s.head? ≠ some (.char '/')

theorem IsTagName.isTagStart {s : Text} (h : IsTagName s) : IsTagStart s :=
  ⟨h.tagFree, fun hhead => h.notMem (by decide) (by decide) (List.mem_of_head? hhead)⟩

theorem lacks_attributesText (h : ∀ a ∈ attributes, a.Lacks isOpening) :
    Lacks isOpening (attributesText attributes) := by
  induction attributes with
  | nil => exact lacks_nil
  | cons a rest ih =>
    obtain ⟨⟨hname, v, hv, hvalue⟩, hrest⟩ := List.forall_mem_cons.mp h
    have hmarks : Lacks isOpening (ofString " " ++ a.name ++ ofString "=\"" ++ v ++ ofString "\"") := by
      simp [ofString, hname, hvalue, isOpening]
    rw [attributesText, Attribute.text, hv]
    exact lacks_append.mpr ⟨hmarks, ih hrest⟩

theorem isClear_tag (htag : IsTagStart tag) (h : ∀ a ∈ attributes, a.Lacks isOpening) :
    (Piece.opening tag attributes).IsClear := by
  refine ⟨lacks_append.mpr ⟨isAngular_isOpening.lacks htag.tagFree, lacks_attributesText h⟩, ?_⟩
  cases tag with
  | cons c cs => exact htag.head
  | nil =>
    cases attributes with
    | nil => simp [attributesText]
    | cons a rest =>
      obtain ⟨v, hv, -⟩ := (h a List.mem_cons_self).value
      simp [attributesText, Attribute.text, hv, ofString]

end Tags

end Markup

/-- No text of the node opens a tag, and its name can be that of a tag. -/
structure Node.IsClear (n : Node) : Prop where
  name : ∃ c cs, n.name = .str (c :: cs) ∧ c.is isWord = true ∧ TagFree (c :: cs)
  texts : n.Lacks isOpening

namespace Markup

section Rules

mutual

/-- The nodes that are rendered below a node and with it: none below a text or a void element. -/
def renderedNodes : Node → List Node
  | ⟨name, properties, bindings, children, scope, elseBranch, metadata⟩ =>
    let n : Node := ⟨name, properties, bindings, children, scope, elseBranch, metadata⟩
    n :: match blockRule n with
      | .ok .fragment | .ok .slot | .ok .loop => renderedChildren children
      | .ok .conditional => renderedChildren children ++ renderedBranch elseBranch
      | .ok .element => if Node.isVoid n then [] else renderedChildren children
      | _ => []

def renderedChildren : List Node → List Node
  | [] => []
  | n :: rest => renderedNodes n ++ renderedChildren rest

def renderedBranch : Option Node → List Node
  | none => []
  | some n => renderedNodes n

end

/-- The node is rendered as an element with a closing tag, and this is the tag. -/
def ClosesElement (n : Node) (tag : Text) : Prop :=
  blockRule n = .ok .element ∧ Node.isVoid n = false ∧
    ∃ name, n.name = .str name ∧ tag = elementSelector name

/-- The node is rendered as a loop or a conditional. -/
def ShowsTemplate (n : Node) : Prop := blockRule n = .ok .loop ∨ blockRule n = .ok .conditional

/-- The name that an interpolation reads, without a leading `props.`. -/
def readMember (code : Text) : Text := (after? "props." (trim code)).getD (trim code)

/-- The node is rendered as a slot: as one of its own, as the place of the children, or as an
    interpolation of a slot. -/
def ShowsSlot (n : Node) : Prop :=
  blockRule n = .ok .slot ∨ blockRule n = .ok .childrenPlaceholder ∨
    ∃ code, blockRule n = .ok (.interpolation code) ∧ isSlotKey (readMember code) = true

/-- The rule of the node closes a tag. -/
def ClosesTag (n : Node) (tag : Text) : Prop :=
  ClosesElement n tag ∨ (tag = templateTag ∧ ShowsTemplate n) ∨
    (tag = ofString "slot" ∧ ShowsSlot n)

theorem isTagStart_elementSelector {c : CodePoint} {cs : Text} (hc : c.is isWord = true)
    (hname : TagFree (c :: cs)) : IsTagStart (elementSelector (c :: cs)) := by
  unfold elementSelector
  extract_lets stripped
  split
  next =>
    have hword : IsTagName [c] := List.forall_mem_singleton.mpr (.inr hc)
    have hblank := hword.not_isBlank List.mem_cons_self
    have hslash : c ≠ .char '/' := by
      rintro rfl
      exact absurd hc (by decide)
    refine ⟨Lacks.of_subset hname (trim_subset _), ?_⟩
    have hstripped : stripped = c :: trimEnd cs := trim_cons hblank cs
    rw [hstripped, List.head?_cons]
    exact fun h => hslash (Option.some.inj h)
  next => exact (isTagName_kebabFrom .start stripped).isTagStart

theorem isTagStart_of_isClear {n : Node} (h : n.IsClear) {name : Text} (hname : n.name = .str name) :
    IsTagStart (elementSelector name) := by
  obtain ⟨c, cs, hs, hc, hfree⟩ := h.name
  obtain rfl := Json.str.inj (hs.symm.trans hname)
  exact isTagStart_elementSelector hc hfree

variable {n : Node} {place : Place} {closed : Text → Prop}

theorem closesTag_iff {rule : BlockRule} (h : blockRule n = .ok rule) (k : Text) :
    ClosesTag n k ↔ match rule with
      | .fragment | .literalText _ => False
      | .slot | .childrenPlaceholder => k = ofString "slot"
      | .interpolation code => k = ofString "slot" ∧ isSlotKey (readMember code) = true
      | .loop | .conditional => k = templateTag
      | .element => Node.isVoid n = false ∧ ∃ name, n.name = .str name ∧ k = elementSelector name := by
  cases rule <;> simp [ClosesTag, ClosesElement, ShowsTemplate, ShowsSlot, h]

theorem closesTags_interpolation {code : Text} (hcode : Lacks isOpening code) :
    ClosesTags (interpolation code place) fun k =>
      k = ofString "slot" ∧ isSlotKey (readMember code) = true := by
  have hraw : ∀ {s : Text}, Lacks isOpening s → ClosesTags [.raw s] fun _ => False :=
    fun hs => closesTags_nil.raw hs
  unfold interpolation
  extract_lets stripped member
  split
  next hslot =>
    have hselector : TagFree (slotSelector member) := (isTagName_kebabFrom _ _).tagFree
    have hhead : TagFree (ofString "select") := by decide
    have hvalue : Lacks isOpening ("[" ++ slotSelector member ++ "]") := by
      simp [ofString, isAngular_isOpening.lacks hselector, isOpening]
    have hattributes : ∀ a ∈ [Attribute.of "select" ("[" ++ slotSelector member ++ "]")],
        a.Lacks isOpening :=
      List.forall_mem_singleton.mpr ⟨isAngular_isOpening.lacks hhead, _, rfl, hvalue⟩
    refine (closesTags_element (isClear_tag isTagName_slot.isTagStart hattributes)
      isTagName_slot.tagFree closesTags_nil).congr fun k => ?_
    have hmember : isSlotKey (readMember code) = true := hslot
    simp [hmember]
  next hslot =>
    have hmember : ¬ isSlotKey (readMember code) = true := hslot
    split
    all_goals
      refine (hraw ?_).congr fun k => by simp [hmember]
    next => exact isAngular_isOpening.lacks (by decide)
    next => simp [ofString, hcode, isOpening]

/-- Codes one after the other, and children behind them unless these have no text. -/
theorem closesTags_groups {codes : List Text} {children : List Piece}
    (hcodes : ∀ code ∈ codes, Lacks isOpening code) (hchildren : ClosesTags children closed) :
    ClosesTags (joinPieces "\n" (codes.map (fun code => [.raw code]) ++
      if (piecesText children).isEmpty then [] else [children])) closed := by
  induction codes with
  | nil =>
    split
    next hempty =>
      refine closesTags_nil.congr fun k => ?_
      rw [← hchildren.closing k, false_iff]
      intro hk
      obtain ⟨before, after, rfl⟩ := List.append_of_mem hk
      rw [List.isEmpty_iff, piecesText_append, piecesText, closing_text] at hempty
      simp at hempty
    next => exact hchildren
  | cons code codes ih =>
    rw [List.forall_mem_cons] at hcodes
    refine ((closesTags_nil.raw hcodes.1).joinPieces_cons lacks_newline (ih hcodes.2)).congr ?_
    simp

theorem closesTags_slotBody {nested : List Json} {children pieces : List Piece}
    (hnested : ∀ code ∈ nested, code.Lacks isOpening) (hchildren : ClosesTags children closed)
    (h : slotBody nested children = .ok pieces) : ClosesTags pieces closed := by
  obtain ⟨codes, hcodes, h⟩ := bind_eq_ok.mp h
  obtain rfl := Except.ok.inj h
  have hgroups := closesTags_groups (Json.lacks_of_mapM_textOr hnested hcodes) hchildren
  split
  next hempty => simpa [hempty] using hgroups
  next hempty => simpa [hempty] using hgroups

theorem closesTags_elementBlock {name : Text} {attributes : List Attribute} {emitted : Emitted}
    {children : Block} (hname : IsTagStart name) (hattributes : ∀ a ∈ attributes, a.Lacks isOpening)
    (hemitted : emitted.Lacks isOpening) (hchildren : ClosesTags children.pieces closed) :
    ClosesTags (elementBlock name attributes emitted children).pieces fun k => k = name ∨ closed k := by
  have hall : ∀ a ∈ attributes ++ emitted.attributes, a.Lacks isOpening := fun a ha =>
    (List.mem_append.mp ha).elim (hattributes a) (hemitted.attributes a)
  have hbody : ClosesTags (emitted.deferredSlots.map .raw ++ (children.pieces ++ [.raw "\n"]))
      closed := by
    have hend := hchildren.append (closesTags_nil.raw lacks_newline)
    exact closesTags_raws hemitted.slots (hend.congr fun k => by simp)
  have helement := closesTags_element (isClear_tag hname hall) hname.tagFree hbody
  simpa [elementBlock, element] using helement

end Rules

section Nodes

variable {n : Node} {place : Place} {b : Block}

theorem renderedNodes_of_rule {rule : BlockRule} (h : blockRule n = .ok rule) :
    renderedNodes n = n :: match rule with
      | .fragment | .slot | .loop => renderedChildren n.children
      | .conditional => renderedChildren n.children ++ renderedBranch n.elseBranch
      | .element => if Node.isVoid n then [] else renderedChildren n.children
      | _ => [] := by
  cases n
  cases rule <;> simp only [renderedNodes, h]

/-- The tags that the block closes are those that the rules of the rendered nodes close. -/
def ClosesRendered (n : Node) (b : Block) : Prop :=
  ClosesTags b.pieces fun k => ∃ m ∈ renderedNodes n, ClosesTag m k

theorem closesTags_joinsBlocks {ns : List Node} {sep : Text} (hsep : Lacks isOpening sep)
    (h : JoinsBlocks ClosesRendered sep ns b) :
    ClosesTags b.pieces fun k => ∃ m ∈ renderedChildren ns, ClosesTag m k := by
  obtain ⟨blocks, hblocks, h⟩ := h
  rw [joinBlocks_pieces h]
  clear h
  induction hblocks with
  | nil => exact closesTags_nil.congr fun k => by simp [renderedChildren]
  | cons hfirst _ ih =>
    refine (hfirst.joinPieces_cons hsep ih).congr fun k => ?_
    simp only [renderedChildren, List.mem_append, or_and_right, exists_or]

theorem closesTags_withBranch {branch : Option Node} {positive : Block} {negative : Option Block}
    {closed : Text → Prop} (hpositive : ClosesTags positive.pieces fun k => k = templateTag ∨ closed k)
    (hnegative : Option.Rel ClosesRendered branch negative) :
    ClosesTags (withBranch positive negative).pieces fun k =>
      k = templateTag ∨ closed k ∨ ∃ m ∈ renderedBranch branch, ClosesTag m k := by
  cases hnegative with
  | none => exact hpositive.congr fun k => by simp [renderedBranch]
  | @some n b hb =>
    have hopening : (Piece.opening templateTag [⟨"else", none⟩]).IsClear := by
      refine ⟨isAngular_isOpening.lacks (by decide), by decide⟩
    have hbody : ClosesTags (.raw "\n" :: (b.pieces ++ [.raw "\n"])) fun k =>
        ∃ m ∈ renderedNodes n, ClosesTag m k := by
      have hend := hb.append (closesTags_nil.raw lacks_newline)
      exact (hend.raw lacks_newline).congr fun k => by simp
    have helse := (closesTags_element hopening isTagName_templateTag.tagFree hbody).raw lacks_newline
    refine (hpositive.append helse).congr fun k => ?_
    rw [renderedBranch]
    tauto

/-- One node, when the blocks below it close what their nodes do. -/
theorem closesRendered_of_givesBlock {rule : BlockRule} (hclear : n.IsClear)
    (hrule : blockRule n = .ok rule) (h : GivesBlock (fun _ => ClosesRendered) place n rule b) :
    ClosesRendered n b := by
  have hlacks := hclear.texts
  have hshown := lacks_blockRule hlacks hrule
  have hproperties := lacks_propertyAttributes hlacks.properties
  simp only [ClosesRendered, renderedNodes_of_rule hrule, List.exists_mem_cons_iff, closesTag_iff hrule]
  cases h with
  | fragment hbody => exact (closesTags_joinsBlocks lacks_newline hbody).congr fun k => by simp
  | slot hattributes hnested hbody hpieces =>
    have hinner := closesTags_slotBody (lacks_nestedCodes hlacks.bindings hnested)
      (closesTags_joinsBlocks lacks_newline hbody) hpieces
    exact closesTags_element (isClear_tag isTagName_slot.isTagStart
      (lacks_slotAttributes isAngular_isOpening hattributes)) isTagName_slot.tagFree hinner
  | childrenPlaceholder =>
    have hopening := isClear_tag isTagName_slot.isTagStart (List.forall_mem_nil _)
    exact (closesTags_element hopening isTagName_slot.tagFree closesTags_nil).congr fun k => by simp
  | literalText => exact (closesTags_nil.raw hshown.display).congr fun k => by simp
  | interpolation => exact (closesTags_interpolation hshown).congr fun k => by simp
  | loop hcollection hbody =>
    have hhead := lacks_loopHead isAngular_isOpening hlacks hcollection
    exact closesTags_element (isClear_tag isTagName_templateTag.isTagStart
      (List.forall_mem_singleton.mpr hhead)) isTagName_templateTag.tagFree
      (closesTags_joinsBlocks lacks_newline hbody)
  | conditional hbody hbranch =>
    have hname : TagFree (ofString "if.bind") := by decide
    have hcondition := lacks_conditionText isAngular_isOpening hlacks
    have hhead : ∀ a ∈ [Attribute.of "if.bind" (conditionText n)], a.Lacks isOpening :=
      List.forall_mem_singleton.mpr ⟨isAngular_isOpening.lacks hname, _, rfl, hcondition⟩
    have hpositive : ClosesTags (positiveBlock n _).pieces _ :=
      closesTags_element (isClear_tag isTagName_templateTag.isTagStart hhead)
        isTagName_templateTag.tagFree (closesTags_joinsBlocks lacks_newline hbody)
    refine (closesTags_withBranch hpositive hbranch).congr fun k => ?_
    simp only [List.mem_append, or_and_right, exists_or]
  | void hname hemitted hvoid =>
    have hselector := isTagStart_of_isClear hclear hname
    have hemits := lacks_emitAll isAngular_isOpening hlacks.bindings hemitted
    have hall := List.forall_mem_append.mpr ⟨hproperties, hemits.attributes⟩
    exact (closesTags_alone (isClear_tag hselector hall)).congr fun k => by simp [hvoid]
  | element hname hemitted hvoid hbody =>
    have hselector := isTagStart_of_isClear hclear hname
    have hemits := lacks_emitAll isAngular_isOpening hlacks.bindings hemitted
    refine (closesTags_elementBlock hselector hproperties hemits
      (closesTags_joinsBlocks lacks_newline hbody)).congr fun k => ?_
    simp [hvoid, hname]

/-- The tags that the markup of nodes closes are those that the rules of the rendered nodes close. -/
theorem closesTags_renderChildren {ns : List Node} {sep : Text} (hsep : Lacks isOpening sep)
    (hns : ∀ m ∈ Node.subtrees ns, m.IsClear) (h : renderChildren place sep ns = .ok b) :
    ClosesTags b.pieces fun k => ∃ m ∈ renderedChildren ns, ClosesTag m k :=
  closesTags_joinsBlocks hsep
    (renderChildren_induction (motive := fun _ => ClosesRendered) closesRendered_of_givesBlock hns h)

end Nodes

end Markup
end ElementCompiler
