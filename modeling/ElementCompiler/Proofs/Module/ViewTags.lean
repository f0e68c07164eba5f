import ElementCompiler.Proofs.Markup.AttributeReading
import ElementCompiler.Proofs.Module.View

set_option autoImplicit false

/-!
The tags of the markup where they stand in the view. The view indents the lines of the markup twice,
around and inside the template tag: a tag stays as it is but for the lines inside its values.
-/

namespace ElementCompiler

open Text

namespace Markup

/-- The attribute with the lines of its value indented. -/
def Attribute.indented (width : Nat) (a : Attribute) : Attribute := ⟨a.name, a.value.map (indentWithin width)⟩

/-- The tag with the lines inside its values indented. -/
def Piece.indented (width : Nat) : Piece → Piece
  | .opening tag attributes => .opening tag (attributes.map (·.indented width))
  | .alone tag attributes => .alone tag (attributes.map (·.indented width))
  | p => p

/-- The attribute as it stands in the view. -/
def Attribute.laidOut (a : Attribute) : Attribute := (a.indented 2).indented 6

/-- The tag as it stands in the view. -/
def Piece.laidOut (p : Piece) : Piece := (p.indented 2).indented 6

section Indented

variable {width : Nat} {a : Attribute} {as : List Attribute} {p : Piece}

@[simp] theorem Piece.isTag_indented (width : Nat) (p : Piece) : (p.indented width).isTag = p.isTag := by
  cases p <;> rfl

@[simp] theorem Piece.tag_indented (width : Nat) (p : Piece) : (p.indented width).tag = p.tag := by
  cases p <;> rfl

@[simp] theorem Piece.ending_indented (width : Nat) (p : Piece) : (p.indented width).ending = p.ending := by
  cases p <;> rfl

@[simp] theorem Piece.attributes_indented (width : Nat) (p : Piece) :
    (p.indented width).attributes = p.attributes.map (·.indented width) := by
  cases p <;> rfl

theorem Attribute.decoded_indented (width : Nat) (a : Attribute) :
    (a.indented width).decoded = a.decoded.indented width := by
  obtain ⟨name, _ | value⟩ := a
  · rfl
  · simp [indented, decoded, decodeQuotes_indentWithin]

theorem Attribute.isEncoded_indented : (a.indented width).IsEncoded ↔ a.IsEncoded := by
  obtain ⟨name, _ | value⟩ := a
  · rfl
  · have hvalue : CodePoint.char '"' ∈ indentWithin width value ↔ CodePoint.char '"' ∈ value :=
      ⟨fun h => (mem_indentWithin h).resolve_right (by decide), mem_indentWithin_of_mem⟩
    exact isEncoded_of.trans ((not_congr hvalue).trans isEncoded_of.symm)

/-- A value of one line stands in the view as it is. -/
theorem Attribute.laidOut_eq_self (h : ∀ v, a.value = some v → CodePoint.char '\n' ∉ v) : a.laidOut = a := by
  obtain ⟨name, _ | value⟩ := a
  · rfl
  · have hline := h value rfl
    simp [laidOut, indented, indentWithin_eq_self hline]

theorem IsAttributeName.newline_notMem {name : Text} (h : IsAttributeName name) : CodePoint.char '\n' ∉ name :=
  fun hmem => absurd (h.ends _ hmem) (by decide)

theorem IsSelector.newline_notMem {name : Text} (h : IsSelector name) : CodePoint.char '\n' ∉ name :=
  fun hmem => absurd (h.ends _ hmem) (by decide)

theorem indentRest_attribute (hname : IsAttributeName a.name) (t : Text) :
    indentRest width (a.text ++ t) = (a.indented width).text ++ indentRest width t := by
  have hnewline := hname.newline_notMem
  obtain ⟨name, _ | value⟩ := a
  · have hlead : CodePoint.char '\n' ∉ .char ' ' :: name := by simpa using hnewline
    exact (congrArg (indentRest width) (text_bare name t)).trans
      ((indentRest_append hlead t).trans (text_bare name _).symm)
  · have hlead : CodePoint.char '\n' ∉ .char ' ' :: (name ++ [.char '=', .char '"']) := by
      simpa using hnewline
    have hsplit : ∀ value t : Text, (Attribute.of name value).text ++ t =
        .char ' ' :: (name ++ [.char '=', .char '"']) ++ (value ++ .char '"' :: t) := fun value t => by
      rw [text_valued, List.cons_append, List.append_assoc]
      rfl
    change indentRest width ((Attribute.of name value).text ++ t) = (Attribute.of name _).text ++ _
    rw [hsplit, hsplit, indentRest_append hlead, indentRest_append_cons (by decide)]

theorem indentRest_attributesText (hnames : ∀ a ∈ as, IsAttributeName a.name) (t : Text) :
    indentRest width (attributesText as ++ t) =
      attributesText (as.map (·.indented width)) ++ indentRest width t := by
  induction as with
  | nil => rfl
  | cons a as ih =>
    rw [List.forall_mem_cons] at hnames
    rw [attributesText, List.append_assoc, indentRest_attribute hnames.1, ih hnames.2, List.map_cons,
      attributesText, List.append_assoc]

/-- A tag inside a text stays when the text is indented, but for the lines inside its values. -/
theorem indentRest_tag (htag : p.isTag = true) (hselector : IsSelector p.tag)
    (hnames : ∀ a ∈ p.attributes, IsAttributeName a.name) (before after : Text) :
    indentRest width (before ++ (p.text ++ after)) =
      indentWithin width before ++ ((p.indented width).text ++ indentRest width after) := by
  have hending : CodePoint.char '\n' ∉ p.ending := by
    cases p with
    | alone => exact (by decide : CodePoint.char '\n' ∉ ofString " />")
    | raw | opening | closing => exact (by decide : CodePoint.char '\n' ∉ ofString ">")
  rw [Piece.text_of_isTag htag, Piece.text_of_isTag ((p.isTag_indented width).trans htag),
    indentRest_append_cons (by decide), indentRest_append hselector.newline_notMem,
    indentRest_attributesText hnames, indentRest_append hending]
  simp

theorem Piece.attributes_laidOut (p : Piece) : p.laidOut.attributes = p.attributes.map Attribute.laidOut := by
  rw [laidOut, attributes_indented, attributes_indented, List.map_map]
  rfl

/-- A tag is read where it stands exactly when no value in it has a double quote. -/
theorem readTag_laidOut_iff (htag : p.isTag = true) (hselector : IsSelector p.tag)
    (hnames : ∀ a ∈ p.attributes, IsAttributeName a.name) (rest : Text) :
    readTag (p.laidOut.text ++ rest) =
        some ⟨p.tag, (p.attributes.map Attribute.decoded).map Attribute.laidOut, rest⟩ ↔
      ∀ a ∈ p.attributes, a.IsEncoded := by
  have htags : p.laidOut.isTag = p.isTag ∧ p.laidOut.tag = p.tag := by simp [Piece.laidOut]
  have hread := readTag_text_iff (p := p.laidOut) (htags.1.trans htag) (htags.2 ▸ hselector) (by
    rw [Piece.attributes_laidOut]
    intro a ha
    obtain ⟨b, hb, rfl⟩ := List.mem_map.mp ha
    exact hnames b hb) rest
  have hdecoded : p.laidOut.attributes.map Attribute.decoded =
      (p.attributes.map Attribute.decoded).map Attribute.laidOut := by
    rw [Piece.attributes_laidOut, List.map_map, List.map_map]
    refine List.map_congr_left fun a _ => ?_
    simp only [Function.comp_apply, Attribute.laidOut, Attribute.decoded_indented]
  rw [hdecoded, htags.2] at hread
  refine hread.trans ?_
  rw [Piece.attributes_laidOut, List.forall_mem_map]
  simp only [Attribute.laidOut, Attribute.isEncoded_indented]

end Indented

end Markup

namespace Module

open Markup

def viewOpening (version : TargetVersion) : Text := if version.wrapsView then "<template>" else ""

def viewClosing (version : TargetVersion) : Text := if version.wrapsView then "</template>" else ""

/-- What stands in the view before what follows a part of the markup. -/
def viewBefore (version : TargetVersion) (imports before : Text) : Text :=
  indentWithin 6 (viewOpening version ++ indentWithin 2 (viewContent imports before))

/-- What stands in the view for the rest of the markup. -/
def viewAfter (version : TargetVersion) (after : Text) : Text :=
  indentRest 6 (indentRest 2 after ++ viewClosing version)

section View

variable {version : TargetVersion} {imports before after : Text} {p : Piece}

theorem viewContent_append (imports before after : Text) :
    viewContent imports (before ++ after) = viewContent imports before ++ after := by
  simp [viewContent]

theorem wrapView_eq (view : Text) : wrapView version view = viewOpening version ++ (view ++ viewClosing version) := by
  unfold wrapView viewOpening viewClosing
  split <;> simp

/-- Where a tag of the markup stands in the view. -/
theorem indentedView_tag (htag : p.isTag = true) (hselector : IsSelector p.tag)
    (hnames : ∀ a ∈ p.attributes, IsAttributeName a.name) :
    indentedView version imports (before ++ (p.text ++ after)) =
      viewBefore version imports before ++ (p.laidOut.text ++ viewAfter version after) := by
  have hnames' : ∀ a ∈ (p.indented 2).attributes, IsAttributeName a.name := by
    rw [Piece.attributes_indented]
    intro a ha
    obtain ⟨b, hb, rfl⟩ := List.mem_map.mp ha
    exact hnames b hb
  rw [indentedView, viewContent_append, indentRest_tag htag hselector hnames, wrapView_eq, List.append_assoc,
    List.append_assoc, ← List.append_assoc,
    indentRest_tag (by simpa using htag) (by simpa using hselector) hnames']
  rfl

end View

end Module
end ElementCompiler
