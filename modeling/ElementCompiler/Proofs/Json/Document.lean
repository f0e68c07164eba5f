import ElementCompiler.Json.Printer
import ElementCompiler.Proofs.Json.Numbers
import ElementCompiler.Proofs.Json.Strings
import ElementCompiler.Text.Lines

set_option autoImplicit false

/-!
A document is written to a file and read from it: what is printed is ASCII with newlines, and no
character of it is changed on the way.
-/

namespace ElementCompiler

def CodePoint.inDocument (c : CodePoint) : Bool :=
  c == '\n' || (32 ≤ c.number && c.number < 127)

namespace Text

theorem string?_of_inDocument {s : Text} (h : s.all CodePoint.inDocument = true) :
    ∃ string, s.string? = some string ∧ ofString string = s := by
  have hchars : ∃ chars : List Char, s.mapM CodePoint.char? = some chars ∧ chars.map .char = s := by
    induction s with
    | nil => exact ⟨[], rfl, rfl⟩
    | cons c s ih =>
      rw [List.all_cons, Bool.and_eq_true] at h
      obtain ⟨chars, hread, hchars⟩ := ih h.2
      cases c with
      | char c =>
        refine ⟨c :: chars, ?_, by rw [List.map_cons, hchars]⟩
        rw [List.mapM_cons, hread]
        rfl
      | half n =>
        have hnumber : (CodePoint.half n).number < 127 := by
          simpa [CodePoint.inDocument] using And.right (by simpa [CodePoint.inDocument] using h.1)
        have hbeyond : (CodePoint.half n).number = 0xD800 + n.val := rfl
        omega
  obtain ⟨chars, hread, hchars⟩ := hchars
  refine ⟨String.ofList chars, by rw [string?, hread]; rfl, ?_⟩
  rw [ofString, String.toList_ofList, hchars]

theorem unifyBreaks_of_inDocument {s : Text} (h : s.all CodePoint.inDocument = true) :
    unifyBreaks s = s := by
  induction s with
  | nil => rfl
  | cons c s ih =>
    rw [List.all_cons, Bool.and_eq_true] at h
    have hreturn : c ≠ '\r' := by
      rintro rfl
      exact absurd h.1 (by decide)
    rw [unifyBreaks.eq_3 c s (by rintro rest rfl; exact absurd rfl hreturn), if_neg hreturn, ih h.2]

/-- A text of such characters has a file, and the file has the text. -/
theorem file_of_inDocument {s : Text} (h : s.all CodePoint.inDocument = true) :
    ∃ bytes, s.utf8? = some bytes ∧ ofUtf8? bytes = some s := by
  obtain ⟨string, hstring, htext⟩ := string?_of_inDocument h
  refine ⟨string.toUTF8, by rw [utf8?, hstring]; rfl, ?_⟩
  have hback : String.fromUTF8? string.toUTF8 = some string := by
    simp only [String.fromUTF8?, String.toUTF8_eq_toByteArray, dif_pos string.isValidUTF8]
    rfl
  rw [ofUtf8?, hback, Option.map_some, htext]

end Text

namespace Json

open CodePoint (inDocument)

theorem inDocument_of_isPrinted {c : CodePoint} (h : IsPrinted c) : c.inDocument = true := by
  rw [inDocument, Bool.or_eq_true, Bool.and_eq_true, decide_eq_true_eq, decide_eq_true_eq]
  exact Or.inr h

theorem stringText_inDocument (s : Text) : (stringText true s).all inDocument = true := by
  have hpoints : (s.flatMap (stringPoint true)).all inDocument = true := by
    rw [List.all_eq_true]
    intro c hc
    obtain ⟨d, _, hd⟩ := List.mem_flatMap.mp hc
    exact inDocument_of_isPrinted ((stringPoint_self_or_escape d).1 c hd)
  have hquote : (Text.ofString "\"").all inDocument = true := by decide
  rw [stringText, List.all_cons, List.all_append, hpoints, hquote]
  rfl

theorem numbers_inDocument : Decimal.numberCharacters.all inDocument = true := by decide

theorem float_inDocument (x : Float) : (textLayout.text x).all inDocument = true :=
  Decimal.all_layoutText numbers_inDocument (by decide) (by decide) (by decide) x

theorem int_inDocument (n : Int) : (Text.ofString (toString n)).all inDocument = true :=
  Decimal.all_int numbers_inDocument n

theorem newline_inDocument (depth : Nat) :
    (Format.document.newline depth).all inDocument = true := by
  have hnewline :
      Format.document.newline depth =
        CodePoint.char '\n' :: List.replicate (2 * depth) (CodePoint.char ' ') := rfl
  rw [hnewline, List.all_cons, List.all_eq_true.mpr fun c hc => ?_]
  · decide
  · rw [(List.mem_replicate.mp hc).2]
    decide

mutual

theorem printOnto_inDocument (depth : Nat) (j : Json) {rest : Text}
    (h : rest.all inDocument = true) :
    (printOnto .document depth j rest).all inDocument = true := by
  have hword : ∀ {word : Text}, word.all inDocument = true →
      (word ++ rest).all inDocument = true := fun hword => by rw [List.all_append, hword, h]; rfl
  cases j with
  | null => exact hword (by decide)
  | bool b => cases b <;> exact hword (by decide)
  | int n => exact hword (int_inDocument n)
  | float x => exact hword (float_inDocument x)
  | str s => exact hword (stringText_inDocument s)
  | arr items =>
    cases items with
    | nil => exact hword (by decide)
    | cons j js =>
      have hend : (Format.document.newline depth ++ "]" ++ rest).all inDocument = true := by
        rw [List.all_append, List.all_append, newline_inDocument, h]
        decide
      have hjs := printItems_inDocument (depth + 1) js hend
      rw [printOnto, List.all_append, List.all_append, newline_inDocument,
        printOnto_inDocument (depth + 1) j hjs]
      decide
  | obj fields =>
    match fields with
    | [] => exact hword (by decide)
    | (k, j) :: fields =>
      have hend : (Format.document.newline depth ++ "\x7d" ++ rest).all inDocument = true := by
        rw [List.all_append, List.all_append, newline_inDocument, h]
        decide
      have hfields := printFields_inDocument (depth + 1) fields hend
      have hkey : (stringText Format.document.asciiOnly (keyText k)).all inDocument = true :=
        stringText_inDocument _
      rw [printOnto, List.all_append, List.all_append, List.all_append, List.all_append,
        newline_inDocument, hkey, printOnto_inDocument (depth + 1) j hfields]
      decide

theorem printItems_inDocument (depth : Nat) (js : List Json) {rest : Text}
    (h : rest.all inDocument = true) :
    (printItems .document depth js rest).all inDocument = true := by
  match js with
  | [] => exact h
  | j :: js =>
    have hjs := printItems_inDocument depth js h
    rw [printItems, List.all_append, List.all_append, newline_inDocument,
      printOnto_inDocument depth j hjs]
    decide

theorem printFields_inDocument (depth : Nat) (fields : List (Key × Json)) {rest : Text}
    (h : rest.all inDocument = true) :
    (printFields .document depth fields rest).all inDocument = true := by
  match fields with
  | [] => exact h
  | (k, j) :: fields =>
    have hfields := printFields_inDocument depth fields h
    have hkey : (stringText Format.document.asciiOnly (keyText k)).all inDocument = true :=
      stringText_inDocument _
    rw [printFields, List.all_append, List.all_append, List.all_append, List.all_append,
      newline_inDocument, hkey, printOnto_inDocument depth j hfields]
    decide

end

/-- A document is written to a file and is in the file as it was printed. -/
theorem document_file (j : Json) : ∃ bytes, (print .document j).utf8? = some bytes ∧
    (Text.ofUtf8? bytes).map Text.unifyBreaks = some (print .document j) := by
  have hprinted : (printOnto .document 0 j []).all CodePoint.inDocument = true :=
    printOnto_inDocument 0 j rfl
  obtain ⟨bytes, hbytes, hback⟩ := Text.file_of_inDocument hprinted
  refine ⟨bytes, hbytes, ?_⟩
  have hbreaks : Text.unifyBreaks (print .document j) = print .document j :=
    Text.unifyBreaks_of_inDocument hprinted
  rw [print] at hbreaks ⊢
  rw [hback, Option.map_some, hbreaks]

end Json
end ElementCompiler
