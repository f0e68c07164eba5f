import ElementCompiler.Proofs.Component.NullWord
import ElementCompiler.Proofs.Markup.Attributes
import ElementCompiler.Proofs.Markup.Rules
import ElementCompiler.Proofs.Markup.Shown
import ElementCompiler.Proofs.Snippet.Ends
import ElementCompiler.Proofs.Text.NullWord

set_option autoImplicit false

/-!
Markup that shows no missing value. Tags are set off by their brackets and attributes by blanks, and what
fills a slot is broken off at its end, so nothing in the markup of nodes runs on into what is next to it.
-/

namespace ElementCompiler.Markup

open Attempt Text

structure Attribute.NullFree (a : Attribute) : Prop where
  name : Text.NullFree a.name
  value : ∀ value, a.value = some value → Text.NullFree value

theorem Attribute.nullFree_of {name value : Text} (hname : Text.NullFree name) (hvalue : Text.NullFree value) :
    (Attribute.of name value).NullFree :=
  ⟨hname, by rintro _ ⟨⟩; exact hvalue⟩

section Pieces

variable {a : Attribute} {as : List Attribute} {tag : Text} {ps : List Piece}

theorem Attribute.NullFree.text (h : a.NullFree) : Text.NullFree a.text := by
  obtain ⟨name, value⟩ := a
  have hname : Text.NullFree (" " ++ name) := .behind (by decide) h.name
  rw [Attribute.text]
  cases value with
  | none => exact hname
  | some value =>
    exact .before (m := "\"") (by decide) (.around (m := "=\"") (by decide) hname (h.value value rfl))

end Pieces

section Attributes

variable {n : Node} {place : Place} {key : Text} {b : Binding} {a : Attribute} {e : Emitted}

theorem encodeQuotes_nullFree {s : Text} (hs : NullFree s) : NullFree (encodeQuotes s) :=
  (edits_replace rfl (by decide) s).nullFree hs

theorem infix_after? {pat s rest : Text} (h : after? pat s = some rest) : rest <:+: s :=
  eq_append_of_after? h ▸ (List.suffix_append pat rest).isInfix

theorem bare_nullFree {code : Text} (h : NullFree code) : NullFree (bare code) := by
  refine h.of_within ?_
  unfold bare
  extract_lets trimmed
  have htrimmed : trimmed <:+: code := Snippet.infix_trim code
  cases hprops : after? "props." trimmed with
  | some rest => exact (infix_after? hprops).trans htrimmed
  | none =>
    cases hstate : after? "state." trimmed with
    | some rest => exact (infix_after? hstate).trans htrimmed
    | none => exact htrimmed

theorem eventName_nullFree (hkey : NullFree key) : NullFree (eventName key n) := by
  unfold eventName
  extract_lets name
  have hname : NullFree name := by
    unfold name
    split
    next => exact nullFree_nil
    next c cs hdrop =>
      have hcs : NullFree cs := hkey.of_within
        ((List.suffix_cons c cs).trans (hdrop ▸ List.drop_suffix 2 key)).isInfix
      exact hcs.prepend (notMem_lower [c])
  split
  · decide
  · exact hname

theorem handlerValue_nullFree {argument value : Text} {code : Json} {names : List Text}
    (hcode : code.ShowsNullFree) (h : handlerValue argument code names = .ok value) : NullFree value := by
  obtain ⟨renamed, hrenamed, h⟩ := bind_eq_ok.mp h
  have hvalue : NullFree (Snippet.unwrapBlock renamed) := by
    refine Snippet.unwrapBlock_nullFree ?_
    unfold Snippet.onSegments at hrenamed
    split at hrenamed
    · exact Except.ok.inj hrenamed ▸ Snippet.renameArgument_nullFree (by decide) argument hcode
    · exact Except.ok.inj hrenamed ▸ nullFree_nil
    · exact Except.ok.inj hrenamed ▸ nullFree_nil
    · cases hrenamed
    · cases hrenamed
  obtain rfl := Except.ok.inj h
  split
  · exact .before (m := "()") (by decide) (hvalue.of_within (Snippet.infix_trim _))
  · exact hvalue

theorem bound_nullFree {name : Text} (h : NullFree name) : NullFree (name ++ ".bind") :=
  h.append_of_begins (by decide) rfl

theorem EmitsAttribute.nullFree (h : EmitsAttribute n place key b a) (hkey : NullFree key) (hb : b.NullFree) :
    a.NullFree := by
  have hcode : ∀ {code}, b.code = .str code → NullFree code := fun hcode => by
    have hshows := hb.code
    rwa [hcode] at hshows
  cases h with
  | spread suffix _ hdigits =>
    have hsuffix : CodePoint.char 'N' ∉ suffix := fun hmem => by cases hdigits _ hmem
    have hname : NullFree ("spreadProps" ++ suffix) := by
      refine nullFree_of_notMem fun hmem => (List.mem_append.mp hmem).elim ?_ hsuffix
      decide
    exact Attribute.nullFree_of (bound_nullFree hname) (encodeQuotes_nullFree (bare_nullFree hkey))
  | event _ hvalue =>
    have hname : NullFree (eventName key n ++ ".delegate") :=
      (eventName_nullFree hkey).append_of_begins (by decide) rfl
    exact Attribute.nullFree_of hname ((handlerValue_nullFree hb.code hvalue).indentRest 1)
  | classes =>
    refine Attribute.nullFree_of (by decide) ?_
    exact .before (m := "\x7d") (by decide) (.behind (m := "$\x7b") (by decide) hb.code)
  | ref _ hcode' => exact Attribute.nullFree_of (by decide) ((hcode hcode').of_within (Snippet.infix_trim _))
  | @mapped target _ hrule hcode' =>
    have htargets : ∀ entry ∈ mappedKeys, NullFree entry.2 := by decide
    obtain ⟨k, hk⟩ := Entries.mem_of_get? (get?_mappedKeys_of_mapped hrule)
    exact Attribute.nullFree_of (bound_nullFree (htargets _ hk)) ((hcode hcode').indentRest 1)
  | checked _ hcode' =>
    refine Attribute.nullFree_of (bound_nullFree hkey) (encodeQuotes_nullFree ?_)
    unfold Json.orElse at hcode'
    split at hcode'
    · have hraw := hb.rawCode
      rw [hcode'] at hraw
      exact Json.nullFree_str.mp hraw
    · exact hcode hcode'
  | index => exact Attribute.nullFree_of (bound_nullFree hkey) (by decide)
  | plain _ hcode' => exact Attribute.nullFree_of (bound_nullFree hkey) ((hcode hcode').indentRest 1)

end Attributes

section Slots

variable {n : Node} {place : Place} {key mark : Text} {b : Binding} {e : Emitted}

end Slots

section Nodes

variable {n : Node} {place : Place} {b : Block}

end Nodes

end ElementCompiler.Markup
