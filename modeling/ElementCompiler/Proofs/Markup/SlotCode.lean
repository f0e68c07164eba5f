import ElementCompiler.Proofs.Component.Texts
import ElementCompiler.Proofs.Markup.Rules
import ElementCompiler.Proofs.Text.Split

set_option autoImplicit false

/-!
What a slot shows: the codes of its bindings, but for its name, and its children. A slot of fewer codes
has less text.
-/

namespace ElementCompiler.Markup

open Attempt Text

section Codes

variable {bindings : Entries (Option Binding)} {codes : List Json}

/-- What a binding shows in a slot. -/
def ownCode (e : Text × Option Binding) : List Json :=
  match e.2 with
  | some b => if e.1 == "name" || !b.code.isGiven then [] else [b.code]
  | none => []

theorem nestedCodes_cons {e : Text × Option Binding} (h : (e.1 == "name") = true ∨ e.2.isSome)
    (bindings : Entries (Option Binding)) :
    nestedCodes (e :: bindings) = (ownCode e ++ ·) <$> nestedCodes bindings := by
  obtain ⟨key, b⟩ := e
  cases hkey : key == "name" with
  | true =>
    cases b <;> simp [nestedCodes, ownCode, hkey]
  | false =>
    cases b with
    | none => simp [hkey] at h
    | some b => cases hgiven : b.code.isGiven <;> simp [nestedCodes, ownCode, hkey, hgiven]

theorem exists_nestedCodes_cons {e : Text × Option Binding}
    (h : nestedCodes (e :: bindings) = .ok codes) : ((e.1 == "name") = true ∨ e.2.isSome) ∧
      ∃ rest, nestedCodes bindings = .ok rest ∧ codes = ownCode e ++ rest := by
  have hshown : (e.1 == "name") = true ∨ e.2.isSome := by
    obtain ⟨key, _ | b⟩ := e
    · left
      by_contra hkey
      simp [nestedCodes, hkey] at h
    · exact .inr rfl
  rw [nestedCodes_cons hshown] at h
  cases hrest : nestedCodes bindings with
  | error fault =>
    rw [hrest] at h
    cases h
  | ok rest =>
    rw [hrest] at h
    exact ⟨hshown, rest, rfl, (Except.ok.inj h).symm⟩

theorem isGiven_of_nestedCodes (h : nestedCodes bindings = .ok codes) :
    ∀ code ∈ codes, code.isGiven = true := by
  induction bindings generalizing codes with
  | nil =>
    obtain rfl := Except.ok.inj h
    exact List.forall_mem_nil _
  | cons e bindings ih =>
    obtain ⟨_, rest, hrest, rfl⟩ := exists_nestedCodes_cons h
    refine List.forall_mem_append.mpr ⟨?_, ih hrest⟩
    unfold ownCode
    grind

end Codes

section Texts

variable {codes codes' : List Text} {text text' : Text}

theorem text_element (tag : Text) (attributes : List Attribute) (pieces : List Piece) :
    piecesText (element tag attributes pieces) = (Piece.opening tag attributes).text ++
      (piecesText pieces ++ (Piece.closing tag).text) := by
  simp [element, piecesText, piecesText_append]

/-- A text that is left out is missed. -/
theorem length_flatten_sublist (hsub : codes'.Sublist codes) (hcodes : ∀ code ∈ codes, code ≠ []) :
    codes'.flatten.length ≤ codes.flatten.length ∧
      (codes.flatten.length ≤ codes'.flatten.length → codes.length ≤ codes'.length) := by
  induction hsub with
  | slnil => simp
  | cons code hsub ih =>
    obtain ⟨hcode, hrest⟩ := List.forall_mem_cons.mp hcodes
    have hpos := List.length_pos_of_ne_nil hcode
    have hle := (ih hrest).1
    simp only [List.flatten_cons, List.length_append]
    omega
  | cons_cons code hsub ih =>
    obtain ⟨hle, hstrict⟩ := ih (List.forall_mem_cons.mp hcodes).2
    simp only [List.flatten_cons, List.length_append, List.length_cons]
    omega

/-- The codes of a slot and its children, when these show anything, line by line. -/
def slotText (codes : List Text) (text : Text) : Text :=
  join "\n" (if text.isEmpty then codes else codes ++ [text])

theorem length_slotText (codes : List Text) (text : Text) : (slotText codes text).length =
    codes.flatten.length + text.length + (codes.length + (if text.isEmpty then 0 else 1) - 1) := by
  have hsep : List.length ("\n" : Text) = 1 := rfl
  rw [slotText, length_join, hsep]
  cases text <;> simp

theorem slotText_shrinks (hsub : codes'.Sublist codes) (hcodes : ∀ code ∈ codes, code ≠ [])
    (htext : text'.length ≤ text.length) :
    (slotText codes' text').length ≤ (slotText codes text).length ∧
      ((slotText codes text).length ≤ (slotText codes' text').length →
        codes.length ≤ codes'.length ∧ text.length ≤ text'.length) := by
  obtain ⟨hflat, hstrict⟩ := length_flatten_sublist hsub hcodes
  have hlength := hsub.length_le
  have hempty : (if text'.isEmpty then 0 else 1) ≤ if text.isEmpty then 0 else 1 := by
    cases text <;> cases text' <;> simp at htext ⊢
  rw [length_slotText, length_slotText]
  omega

theorem slotBody_texts (codes : List Text) (pieces : List Piece) :
    ∃ shown, slotBody (codes.map .str) pieces = .ok shown ∧
      piecesText shown = slotText codes (piecesText pieces) := by
  have hcodes : (codes.map .str).mapM (Json.textOr .wrongKind) = .ok codes := mapM_textOr_eq_ok.mpr rfl
  refine ⟨_, by rw [slotBody, hcodes, ok_bind]; rfl, ?_⟩
  have hraw : (codes.map fun code => [Piece.raw code]).map piecesText = codes := by
    simp [Function.comp_def, piecesText, Piece.text]
  rw [piecesText_joinPieces, slotText, apply_ite (List.map piecesText), List.map_append, hraw]
  rfl

/-- A slot of fewer codes and less markup, with what is missing when it has as much text. -/
theorem slotBody_shrinks {nested nested' : List Json} {pieces pieces' shown : List Piece}
    (h : slotBody nested pieces = .ok shown) (hsub : nested'.Sublist nested)
    (hnested : ∀ code ∈ nested, code.isGiven = true)
    (hpieces : (piecesText pieces').length ≤ (piecesText pieces).length) :
    ∃ shown', slotBody nested' pieces' = .ok shown' ∧
      (piecesText shown').length ≤ (piecesText shown).length ∧
      ((piecesText shown).length ≤ (piecesText shown').length →
        nested.length ≤ nested'.length ∧ (piecesText pieces).length ≤ (piecesText pieces').length) := by
  obtain ⟨codes, htexts, _⟩ := bind_eq_ok.mp h
  obtain rfl := mapM_textOr_eq_ok.mp htexts
  obtain ⟨codes', hcodesSub, rfl⟩ := List.sublist_map_iff.mp hsub
  have hcodes : ∀ code ∈ codes, code ≠ [] := by
    rintro code hcode rfl
    exact absurd (hnested _ (List.mem_map_of_mem hcode)) (by decide)
  obtain ⟨_, hshown, htext⟩ := slotBody_texts codes pieces
  obtain rfl := Except.ok.inj (h.symm.trans hshown)
  obtain ⟨shown', hshown', htext'⟩ := slotBody_texts codes' pieces'
  refine ⟨shown', hshown', ?_⟩
  rw [htext, htext', List.length_map, List.length_map]
  exact slotText_shrinks hcodesSub hcodes hpieces

end Texts

end ElementCompiler.Markup
