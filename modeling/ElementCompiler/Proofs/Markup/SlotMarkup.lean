import ElementCompiler.Proofs.Markup.Attributes
import ElementCompiler.Proofs.Markup.Quoting
import ElementCompiler.Proofs.Markup.Standing

set_option autoImplicit false

/-!
Markup that fills a slot. The attribute of the slot is put before the end of the first tag when the code
has no double quotes; these are encoded before, as if the code were the value of an attribute, and the
first `>` is taken for the end of the tag even between them.
-/

namespace ElementCompiler.Markup

open Attempt Text

/-- Whether a text can stand in a tag before its end: its double quotes are paired, and every `>` is
    between two of them. -/
def isTagText : (quoted : Bool) → Text → Bool
  | quoted, [] => !quoted
  | quoted, c :: cs =>
    if c = '"' then isTagText (!quoted) cs else (quoted || c != '>') && isTagText quoted cs

/-- Markup that begins with a tag: what stands before the end of the tag, that end, and the rest. -/
structure FirstTag (code head close rest : Text) : Prop where
  split : code = .char '<' :: (head ++ (close ++ rest))
  inside : isTagText false head = true
  ends : close = "/>" ∨ close = ">" ∧ List.getLast? head ≠ some (.char '/')

/-- Markup with an attribute put before the end of its first tag. -/
def withSlot (mark head close rest : Text) : Text := .char '<' :: (head ++ (" " ++ mark ++ (close ++ rest)))

section Marking

variable {mark code head close rest s t : Text} {c : CodePoint}

theorem end_notMem_of_isTagText (h : isTagText false s = true) (hquote : CodePoint.char '"' ∉ s) :
    CodePoint.char '>' ∉ s := by
  induction s with
  | nil => exact List.not_mem_nil
  | cons c s ih =>
    rw [List.mem_cons, not_or] at hquote
    rw [isTagText, if_neg (Ne.symm hquote.1), Bool.false_or, Bool.and_eq_true, bne_iff_ne] at h
    exact List.not_mem_cons_of_ne_of_not_mem (Ne.symm h.1) (ih h.2 hquote.2)

theorem markSlot_cons (hc : c ≠ '>') (hslash : ¬ (c = '/' ∧ s.head? = some (.char '>'))) :
    markSlot mark (c :: s) = c :: markSlot mark s := by
  rw [markSlot]
  · exact if_neg hc
  · rintro rest rfl rfl
    exact hslash ⟨rfl, rfl⟩

theorem markSlot_append (hs : CodePoint.char '>' ∉ s)
    (hlast : ¬ (s.getLast? = some (.char '/') ∧ t.head? = some (.char '>'))) :
    markSlot mark (s ++ t) = s ++ markSlot mark t := by
  induction s with
  | nil => rfl
  | cons c s ih =>
    rw [List.mem_cons, not_or] at hs
    cases s with
    | nil =>
      exact markSlot_cons (Ne.symm hs.1) fun ⟨hc, hend⟩ => hlast ⟨congrArg some hc, hend⟩
    | cons d s =>
      rw [List.getLast?_cons_cons] at hlast
      have hd : d ≠ '>' := fun hd => hs.2 (hd ▸ List.mem_cons_self)
      rw [List.cons_append, markSlot_cons (Ne.symm hs.1) fun ⟨_, hend⟩ => hd (Option.some.inj hend), ih hs.2 hlast]
      rfl

/-- What is put in before the end of a tag is put in there when no other `>` comes before it. -/
theorem markSlot_tag (hhead : CodePoint.char '>' ∉ head)
    (hends : close = "/>" ∨ close = ">" ∧ List.getLast? head ≠ some (.char '/')) (rest : Text) :
    markSlot mark (.char '<' :: (head ++ (close ++ rest))) = withSlot mark head close rest := by
  have hlast : ¬ (List.getLast? head = some (.char '/') ∧ (close ++ rest).head? = some (.char '>')) := by
    rintro ⟨hslash, hend⟩
    rcases hends with rfl | ⟨rfl, hne⟩
    · cases hend
    · exact hne hslash
  have hclose : markSlot mark (close ++ rest) = " " ++ mark ++ (close ++ rest) := by
    rcases hends with rfl | ⟨rfl, -⟩
    · exact List.append_assoc _ _ _
    · rfl
  rw [markSlot_cons (by decide) (by simp), markSlot_append hhead hlast, hclose, withSlot]

/-- A blank is put where the first `>` or the slash before it was, so nothing that has one stays. -/
theorem end_notMem_of_markSlot {u : Text} (h : markSlot mark (s ++ t) = s ++ u) : CodePoint.char '>' ∉ s := by
  induction s with
  | nil => exact List.not_mem_nil
  | cons c s ih =>
    rw [List.cons_append, markSlot.eq_def] at h
    split at h
    next hnil => cases hnil
    next hcons =>
      obtain ⟨rfl, -⟩ := List.cons.inj hcons
      exact absurd (List.cons.inj h).1 (by decide)
    next hcons =>
      obtain ⟨rfl, rfl⟩ := List.cons.inj hcons
      split at h
      next hc => exact absurd ((List.cons.inj h).1.trans hc) (by decide)
      next hc => exact List.not_mem_cons_of_ne_of_not_mem (Ne.symm hc) (ih (List.cons.inj h).2)

theorem getLast?_of_encodeQuotes (hc : c ≠ ';') (h : (encodeQuotes s).getLast? = some c) : s.getLast? = some c := by
  induction s using List.reverseRecOn with
  | nil => exact h
  | append_singleton s d _ =>
    rw [encodeQuotes_append, encodeQuotes_cons, encodeQuotes_nil, List.append_nil, encodeQuote] at h
    split at h
    next =>
      rw [List.getLast?_append_of_ne_nil _ (by decide)] at h
      exact absurd (Option.some.inj h).symm hc
    next => rwa [List.getLast?_concat] at h ⊢

theorem end_mem_encodeQuotes : CodePoint.char '>' ∈ encodeQuotes s ↔ CodePoint.char '>' ∈ s :=
  mem_encodeQuotes_iff (by decide) (by decide)

theorem FirstTag.encoded (h : FirstTag code head close rest) :
    encodeQuotes code = .char '<' :: (encodeQuotes head ++ (close ++ encodeQuotes rest)) := by
  obtain ⟨rfl, -, hends⟩ := h
  have hclose : CodePoint.char '"' ∉ close := by
    rcases hends with rfl | ⟨rfl, -⟩ <;> decide
  rw [encodeQuotes_cons, encodeQuote_of_ne (by decide), encodeQuotes_append, encodeQuotes_append,
    encodeQuotes_eq_self hclose, List.singleton_append]

/-- The end of the first tag is found exactly when no value in the tag has a `>`. -/
theorem FirstTag.placed_iff (h : FirstTag code head close rest) : markSlot mark (encodeQuotes code) =
    withSlot mark (encodeQuotes head) close (encodeQuotes rest) ↔ CodePoint.char '>' ∉ head := by
  rw [h.encoded]
  constructor
  · intro hplaced hmem
    exact end_notMem_of_markSlot (s := .char '<' :: encodeQuotes head) hplaced
      (List.mem_cons_of_mem _ (end_mem_encodeQuotes.mpr hmem))
  · intro hnone
    refine markSlot_tag (mt end_mem_encodeQuotes.mp hnone) ?_ _
    exact h.ends.imp_right (And.imp_right (mt (getLast?_of_encodeQuotes (by decide))))

example : markSlot "header" (encodeQuotes "<a title=\"x>y\">z</a>") = "<a title=&quot;x header>y&quot;>z</a>" := by
  decide +kernel

/-- Wherever the attribute is put, it is all that is put into the code. -/
theorem exists_markSlot (mark : Text) (h : CodePoint.char '>' ∈ s) :
    ∃ front back, s = front ++ back ∧ markSlot mark s = front ++ (" " ++ mark ++ back) := by
  fun_induction markSlot mark s with
  | case1 => cases h
  | case2 cs => exact ⟨[], "/>" ++ cs, rfl, by simp⟩
  | case3 cs hslash => exact ⟨[], .char '>' :: cs, rfl, by simp⟩
  | case4 c cs hslash hc ih =>
    obtain ⟨front, back, rfl, hmarked⟩ := ih ((List.mem_cons.mp h).resolve_left (Ne.symm hc))
    exact ⟨c :: front, back, rfl, by rw [hmarked]; rfl⟩

theorem FirstTag.end_mem (h : FirstTag code head close rest) : CodePoint.char '>' ∈ code := by
  obtain ⟨rfl, -, hends⟩ := h
  have hclose : CodePoint.char '>' ∈ close := by
    rcases hends with rfl | ⟨rfl, -⟩ <;> decide
  exact List.mem_cons_of_mem _ (List.mem_append_right _ (List.mem_append_left _ hclose))

theorem count_withSlot (h : FirstTag code head close rest) :
    List.count c (withSlot mark head close rest) = List.count c code + List.count c (" " ++ mark) := by
  rw [withSlot, h.split]
  simp only [List.count_cons, List.count_append]
  omega

/-- Code that is encoded as if it were a value is marked as it should be exactly when it has no double
    quotes: its own are gone otherwise. -/
theorem FirstTag.marked_iff (h : FirstTag code head close rest) :
    markSlot mark (encodeQuotes code) = withSlot mark head close rest ↔ CodePoint.char '"' ∉ code := by
  constructor
  · intro hmarked
    obtain ⟨front, back, hsplit, hput⟩ := exists_markSlot mark (end_mem_encodeQuotes.mpr h.end_mem)
    have hnone : List.count (CodePoint.char '"') (front ++ back) = 0 := by
      rw [← hsplit]
      exact List.count_eq_zero_of_not_mem (quote_notMem_encodeQuotes code)
    -- the mark may bring quotes of its own, but it brings as many to both sides
    have hcount := congrArg (List.count (CodePoint.char '"')) (hput.symm.trans hmarked)
    rw [count_withSlot h] at hcount
    rw [List.count_append] at hnone
    rw [List.count_append, List.count_append] at hcount
    exact List.count_eq_zero.mp (by omega)
  · intro hquote
    have hinside : CodePoint.char '"' ∉ head := fun hmem => hquote (h.split ▸ by simp [hmem])
    rw [encodeQuotes_eq_self hquote, h.split]
    exact markSlot_tag (end_notMem_of_isTagText h.inside hinside) h.ends rest

theorem markSlot_ne_nil (h : CodePoint.char '>' ∈ s) : markSlot mark s ≠ [] := by
  obtain ⟨front, back, -, hmarked⟩ := exists_markSlot mark h
  rw [hmarked]
  exact List.append_ne_nil_of_right_ne_nil _ (List.cons_ne_nil _ _)

end Marking

section Emission

variable {n : Node} {place : Place} {key code : Text} {b : Binding} {e : Emitted} {k : Block} {p : Piece}

theorem slot_mem_emitted (h : emitAll n place = .ok e) (hb : (key, some b) ∈ n.bindings)
    (hrule : BindingRule.of key b.mode = .slot) (hcode : b.code = .str code) :
    markSlot (lower (slotName key)) code ∈ e.deferredSlots := by
  obtain ⟨sources, es, hes, rfl⟩ := emitAll_eq_ok h
  obtain ⟨e, he, y, hy, hemitted⟩ := exists_right hes _ hb
  obtain rfl := Option.some.inj hy
  rw [concat_slots, List.mem_flatMap]
  cases givesEmitted_of_rule hrule hemitted with
  | slot hcode' =>
    obtain rfl := Json.str.inj (hcode'.symm.trans hcode)
    exact ⟨_, he, List.mem_singleton_self _⟩

/-- The markup for a slot stands between the tags of its element. -/
theorem slot_mem_pieces (helement : blockRule n = .ok .element) (hvoid : Node.isVoid n = false)
    (hk : renderNode place n = .ok k) (hb : (key, some b) ∈ n.bindings)
    (hrule : BindingRule.of key b.mode = .slot) (hcode : b.code = .str code) :
    .raw (markSlot (lower (slotName key)) code) ∈ k.pieces := by
  cases givesBlock_of_rule helement hk with
  | void _ _ hself => exact absurd (hself.symm.trans hvoid) (by decide)
  | element _ hemitted _ _ =>
    have hslot := slot_mem_emitted hemitted hb hrule hcode
    exact List.mem_cons_of_mem _ (List.mem_append_left _ (List.mem_append_left _ (List.mem_map_of_mem hslot)))

theorem exists_text_of_mem {ps : List Piece} (hp : p ∈ ps) :
    ∃ before after, piecesText ps = before ++ (p.text ++ after) := by
  obtain ⟨front, back, rfl⟩ := List.append_of_mem hp
  exact ⟨piecesText front, piecesText back, piecesText_append _ _⟩

end Emission

end ElementCompiler.Markup
