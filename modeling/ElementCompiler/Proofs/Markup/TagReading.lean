import ElementCompiler.Proofs.Markup.TagFree

set_option autoImplicit false

/-!
Reading the tags of a markup, each from `<` to the next `>`. A tag that begins with a slash closes
the innermost open tag, which must have its name; a tag that ends in a blank and a slash stands
alone; every other tag opens. Texts that leave the reader as deep as it was can be put one after the
other and between tags.
-/

namespace ElementCompiler.Markup

open Text

/-- The name of a tag, from what stands between its angle brackets. -/
def tagName (content : Text) : Text := content.takeWhile fun c => !c.is isBlank

def elseTag : Text := "template else"

/-- What a reader of tags knows: the open tags, innermost first; the tag that the last tag closed,
    when it closed one, and the text after it; what has been read of an unfinished tag; and for each
    `else` tag in order the tag whose region it follows after one newline, if it follows one so. -/
structure TagReader where
  openTags : List Text
  closed : Option Text
  gap : Text
  inside : Option Text
  followed : List (Option Text)
  deriving DecidableEq, Repr

namespace TagReader

def start : TagReader := ⟨[], none, [], none, []⟩

def close (r : TagReader) (name : Text) : Option TagReader :=
  match r.openTags with
  | [] => none
  | tag :: rest =>
    if name = tagName tag then some ⟨rest, some tag, [], none, r.followed⟩ else none

def standAlone (r : TagReader) : TagReader := ⟨r.openTags, none, [], none, r.followed⟩

def enter (r : TagReader) (content : Text) : TagReader :=
  let owner := if r.gap = "\n" then r.closed else none
  ⟨content :: r.openTags, none, [], none,
    if content = elseTag then r.followed ++ [owner] else r.followed⟩

def tag (r : TagReader) (content : Text) : Option TagReader :=
  if content.head? = some (.char '/') then r.close content.tail
  else if endsWith " /" content then some r.standAlone
  else some (r.enter content)

def step (r : TagReader) (c : CodePoint) : Option TagReader :=
  match r.inside with
  | none =>
    if c = '<' then some { r with inside := some [] } else some { r with gap := r.gap ++ [c] }
  | some content =>
    if c = '>' then r.tag content else some { r with inside := some (content ++ [c]) }

def read : TagReader → Text → Option TagReader
  | r, [] => some r
  | r, c :: cs => do (← r.step c).read cs

theorem read_append (r : TagReader) (s t : Text) :
    r.read (s ++ t) = (r.read s).bind (·.read t) := by
  induction s generalizing r with
  | nil => simp [read]
  | cons c cs ih =>
    simp only [read, List.cons_append, Option.bind_eq_bind]
    cases r.step c <;> simp [ih]

theorem read_text {r : TagReader} (hr : r.inside = none) {s : Text} (hs : TagFree s) :
    r.read s = some { r with gap := r.gap ++ s } := by
  induction s generalizing r with
  | nil => simp [read]
  | cons c cs ih =>
    rw [tagFree_cons] at hs
    have hc : c ≠ '<' := by
      rintro rfl
      exact absurd hs.1 (by decide)
    have hstep : r.step c = some { r with gap := r.gap ++ [c] } := by simp [step, hr, hc]
    rw [read, hstep]
    simp [ih (r := { r with gap := r.gap ++ [c] }) hr hs.2]

theorem read_inside {r : TagReader} {done : Text} (hr : r.inside = some done) {s : Text}
    (hs : TagFree s) : r.read s = some { r with inside := some (done ++ s) } := by
  induction s generalizing r done with
  | nil => simp [read, ← hr]
  | cons c cs ih =>
    rw [tagFree_cons] at hs
    have hc : c ≠ '>' := by
      rintro rfl
      exact absurd hs.1 (by decide)
    have hstep : r.step c = some { r with inside := some (done ++ [c]) } := by simp [step, hr, hc]
    rw [read, hstep]
    simp [ih (r := { r with inside := some (done ++ [c]) }) rfl hs.2]

theorem read_tag {r : TagReader} (hr : r.inside = none) {content : Text} (h : TagFree content) :
    r.read (.char '<' :: (content ++ [.char '>'])) = r.tag content := by
  have hopen : r.step '<' = some { r with inside := some [] } := by simp [step, hr]
  rw [read, hopen, Option.bind_eq_bind, Option.bind_some, read_append,
    read_inside (r := { r with inside := some [] }) rfl h]
  exact Option.bind_fun_some _

end TagReader

section Tags

/-- A text of letters, numbers, low lines and hyphens. -/
def IsTagName (s : Text) : Prop := ∀ c ∈ s, c = '-' ∨ c.is isWord = true

variable {name : Text} {attributes : List Attribute}

theorem IsTagName.notMem (hname : IsTagName name) {c : Char} (hhyphen : c ≠ '-')
    (hword : isWord c = false) : .char c ∉ name := by
  intro hmem
  rcases hname _ hmem with h | h
  · exact hhyphen (CodePoint.char.inj h)
  · simp [CodePoint.is, hword] at h

theorem isWord_toLower_ofNat : ∀ n < 128, (Char.ofNat n).isAlphanum = true →
    isWord (Char.ofNat n).toLower = true := by decide

theorem isWord_toLower {c : Char} (h : c.isAlphanum = true) : isWord c.toLower = true := by
  have hlower := isWord_toLower_ofNat c.toNat (toNat_lt_of_isAlphanum h)
  rw [Char.ofNat_toNat] at hlower
  exact hlower h

theorem isTagName_cons {c : CodePoint} {s : Text} :
    IsTagName (c :: s) ↔ (c = '-' ∨ c.is isWord = true) ∧ IsTagName s := List.forall_mem_cons

theorem isTagName_kebabFrom (state : WordState) (s : Text) : IsTagName (kebabFrom state s) := by
  fun_induction kebabFrom state s with
  | case1 => simp [IsTagName]
  | case2 state n cs ih => exact ih
  | case3 state c cs halnum lower hsplit ih =>
    exact isTagName_cons.mpr ⟨Or.inl rfl, isTagName_cons.mpr ⟨Or.inr (isWord_toLower halnum), ih⟩⟩
  | case4 state c cs halnum lower hsplit ih =>
    exact isTagName_cons.mpr ⟨Or.inr (isWord_toLower halnum), ih⟩
  | case5 state c cs halnum ih => exact ih

theorem IsTagName.tagFree (hname : IsTagName name) : TagFree name := by
  intro c hc
  by_cases hangle : c = '<' ∨ c = '>'
  · rcases hangle with rfl | rfl
    · exact absurd hc (hname.notMem (by decide) (by decide))
    · exact absurd hc (hname.notMem (by decide) (by decide))
  · simp_all [isAngle]

theorem IsTagName.not_isBlank (hname : IsTagName name) {c : CodePoint} (hc : c ∈ name) :
    c.is isBlank = false := by
  rcases hname c hc with rfl | h
  · decide
  · refine is_isBlank_of_isMember ?_
    cases c with
    | char c => exact isMember_of_isWord h
    | half n => cases h

structure Attribute.IsQuoted (a : Attribute) : Prop where
  name : TagFree a.name
  value : ∃ v, a.value = some v ∧ TagFree v

theorem Attribute.isQuoted_of {name value : Text} (hname : TagFree name) (hvalue : TagFree value) :
    (Attribute.of name value).IsQuoted := ⟨hname, value, rfl, hvalue⟩

theorem Attribute.IsQuoted.text_eq {a : Attribute} (h : a.IsQuoted) :
    ∃ s, TagFree s ∧ a.text = .char ' ' :: (s ++ [.char '"']) := by
  obtain ⟨v, hv, hfree⟩ := h.value
  have hquote : TagFree (ofString "=\"") := by decide
  refine ⟨a.name ++ "=\"" ++ v, ?_, ?_⟩
  · simp [h.name, hfree, hquote]
  · simp [Attribute.text, hv, ofString]

/-- Attributes begin with a blank and end in a quote. -/
theorem attributesText_eq (h : ∀ a ∈ attributes, a.IsQuoted) : attributesText attributes = [] ∨
    ∃ s, TagFree s ∧ attributesText attributes = .char ' ' :: (s ++ [.char '"']) := by
  induction attributes with
  | nil => exact Or.inl rfl
  | cons a rest ih =>
    rw [List.forall_mem_cons] at h
    obtain ⟨s, hs, htext⟩ := h.1.text_eq
    right
    rw [attributesText, htext]
    rcases ih h.2 with hnone | ⟨t, ht, hrest⟩
    · exact ⟨s, hs, by simp [hnone]⟩
    · refine ⟨s ++ [.char '"', .char ' '] ++ t, ?_, by simp [hrest]⟩
      simp [hs, ht, isAngle]

/-- What stands between the angle brackets of an opening tag. -/
def tagContent (name : Text) (attributes : List Attribute) : Text :=
  name ++ attributesText attributes

theorem tagFree_tagContent (hname : IsTagName name) (h : ∀ a ∈ attributes, a.IsQuoted) :
    TagFree (tagContent name attributes) := by
  rcases attributesText_eq h with hnone | ⟨s, hs, htext⟩
  · simp [tagContent, hnone, hname.tagFree]
  · simp [tagContent, htext, hname.tagFree, hs, isAngle]

theorem tagName_tagContent (hname : IsTagName name) (h : ∀ a ∈ attributes, a.IsQuoted) :
    tagName (tagContent name attributes) = name := by
  have hword : ∀ c ∈ name, (!c.is isBlank) = true := fun c hc => by simp [hname.not_isBlank hc]
  unfold tagName tagContent
  rw [List.takeWhile_append_of_pos hword]
  rcases attributesText_eq h with hnone | ⟨s, -, htext⟩
  · simp [hnone]
  · have hblank : CodePoint.is isBlank ' ' = true := by decide
    simp [htext, hblank]

theorem head?_tagContent (hname : IsTagName name) (h : ∀ a ∈ attributes, a.IsQuoted) :
    (tagContent name attributes).head? ≠ some (.char '/') := by
  unfold tagContent
  cases name with
  | nil => rcases attributesText_eq h with hnone | ⟨s, -, htext⟩ <;> simp [*]
  | cons c cs =>
    have hslash := hname.notMem (c := '/') (by decide) (by decide)
    simp_all [eq_comm]

theorem getLast?_tagContent (name : Text) (h : ∀ a ∈ attributes, a.IsQuoted) :
    attributesText attributes = [] ∨ (tagContent name attributes).getLast? = some (.char '"') := by
  refine (attributesText_eq h).imp_right fun ⟨s, _, htext⟩ => ?_
  rw [tagContent, htext, ← List.cons_append, ← List.append_assoc, List.getLast?_concat]

theorem getLast?_of_endsWith {c : CodePoint} (pat : Text) {s : Text}
    (h : endsWith (pat ++ [c]) s = true) : s.getLast? = some c := by
  rw [endsWith, startsWith, Option.isSome_iff_exists] at h
  obtain ⟨rest, hrest⟩ := h
  have hrev := eq_append_of_after? hrest
  rw [List.getLast?_eq_head?_reverse, hrev]
  simp

theorem endsWith_tagContent (hname : IsTagName name) (h : ∀ a ∈ attributes, a.IsQuoted) :
    endsWith " /" (tagContent name attributes) = false := by
  by_contra hend
  have hslash : ofString " /" = [.char ' '] ++ [.char '/'] := by decide
  rw [hslash, Bool.not_eq_false] at hend
  have hlast := getLast?_of_endsWith [.char ' '] hend
  rcases getLast?_tagContent name h with hnone | hquote
  · rw [tagContent, hnone, List.append_nil] at hlast
    exact hname.notMem (by decide) (by decide) (List.mem_of_getLast? hlast)
  · simp [hquote] at hlast

theorem tagContent_ne_elseTag (hname : IsTagName name) (h : ∀ a ∈ attributes, a.IsQuoted) :
    tagContent name attributes ≠ elseTag := by
  intro heq
  rcases getLast?_tagContent name h with hnone | hquote
  · rw [tagContent, hnone, List.append_nil] at heq
    exact absurd (heq ▸ by decide : CodePoint.char ' ' ∈ name)
      (hname.notMem (by decide) (by decide))
  · rw [heq] at hquote
    exact absurd hquote (by decide)

end Tags

section Pieces

variable {r : TagReader} {name : Text} {attributes : List Attribute}

theorem read_opening (hr : r.inside = none) (hname : IsTagName name)
    (h : ∀ a ∈ attributes, a.IsQuoted) : r.read (Piece.opening name attributes).text =
      some ⟨tagContent name attributes :: r.openTags, none, [], none, r.followed⟩ := by
  have htext : (Piece.opening name attributes).text =
      .char '<' :: (tagContent name attributes ++ [.char '>']) := by
    simp [Piece.text, tagContent, ofString]
  rw [htext, TagReader.read_tag hr (tagFree_tagContent hname h), TagReader.tag,
    if_neg (head?_tagContent hname h), endsWith_tagContent hname h, if_neg (by simp),
    TagReader.enter, if_neg (tagContent_ne_elseTag hname h)]

theorem read_closing (hr : r.inside = none) (hname : IsTagName name) {content : Text}
    {rest : List Text} (hopen : r.openTags = content :: rest) (hcontent : tagName content = name) :
    r.read (Piece.closing name).text = some ⟨rest, some content, [], none, r.followed⟩ := by
  have htext : (Piece.closing name).text = .char '<' :: ((.char '/' :: name) ++ [.char '>']) := by
    simp [Piece.text, ofString]
  have hfree : TagFree (.char '/' :: name) := by simp [hname.tagFree, isAngle]
  rw [htext, TagReader.read_tag hr hfree, TagReader.tag, if_pos (by simp)]
  simp [TagReader.close, hopen, hcontent]

theorem read_alone (hr : r.inside = none) (hname : IsTagName name)
    (h : ∀ a ∈ attributes, a.IsQuoted) :
    r.read (Piece.alone name attributes).text = some r.standAlone := by
  have htext : (Piece.alone name attributes).text =
      .char '<' :: ((tagContent name attributes ++ ofString " /") ++ [.char '>']) := by
    simp [Piece.text, tagContent, ofString]
  have hslash : TagFree (ofString " /") := by decide
  have hfree := tagFree_append.mpr ⟨tagFree_tagContent hname h, hslash⟩
  have hhead : (tagContent name attributes ++ ofString " /").head? ≠ some (.char '/') := by
    have hcontent := head?_tagContent hname h
    cases htag : tagContent name attributes <;> simp_all [ofString]
  have hend : endsWith " /" (tagContent name attributes ++ ofString " /") = true := by
    simp [endsWith, startsWith]
  rw [htext, TagReader.read_tag hr hfree, TagReader.tag, if_neg hhead, if_pos hend]

end Pieces

section Nesting

variable {s t : Text} {owners others : List Text}

/-- Where a reader goes with tags that are all closed again. -/
structure TagReader.Returns (r r' : TagReader) (owners : List Text) : Prop where
  openTags : r'.openTags = r.openTags
  inside : r'.inside = none
  followed : r'.followed = r.followed ++ owners.map some

/-- The text closes every tag that it opens. Each of its `else` tags follows the region of an owner,
    in this order. -/
def IsNested (s : Text) (owners : List Text) : Prop :=
  ∀ r : TagReader, r.inside = none → ∃ r', r.read s = some r' ∧ r.Returns r' owners

/-- The text is one region: it begins with a tag and ends with the tag that closes it. -/
def IsRegion (content s : Text) (owners : List Text) : Prop :=
  ∀ r : TagReader, r.inside = none →
    ∃ r', r.read s = some r' ∧ r.Returns r' owners ∧ r'.closed = some content ∧ r'.gap = []

theorem IsRegion.isNested {content : Text} (h : IsRegion content s owners) : IsNested s owners :=
  fun r hr => (h r hr).imp fun _ h => ⟨h.1, h.2.1⟩

theorem TagReader.Returns.trans {r r' r'' : TagReader} (h : r.Returns r' owners)
    (h' : r'.Returns r'' others) : r.Returns r'' (owners ++ others) where
  openTags := h'.openTags.trans h.openTags
  inside := h'.inside
  followed := by rw [h'.followed, h.followed, List.map_append, List.append_assoc]

theorem IsNested.append (hs : IsNested s owners) (ht : IsNested t others) :
    IsNested (s ++ t) (owners ++ others) := by
  intro r hr
  obtain ⟨r', hread, hreturns⟩ := hs r hr
  obtain ⟨r'', hread', hreturns'⟩ := ht r' hreturns.inside
  exact ⟨r'', by simp [TagReader.read_append, hread, hread'], hreturns.trans hreturns'⟩

theorem isNested_text (hs : TagFree s) : IsNested s [] :=
  fun r hr => ⟨_, TagReader.read_text hr hs, ⟨rfl, hr, by simp⟩⟩

theorem isNested_alone {name : Text} {attributes : List Attribute} (hname : IsTagName name)
    (h : ∀ a ∈ attributes, a.IsQuoted) : IsNested (Piece.alone name attributes).text [] :=
  fun _ hr => ⟨_, read_alone hr hname h, ⟨rfl, rfl, by simp [TagReader.standAlone]⟩⟩

theorem isRegion_element {name : Text} {attributes : List Attribute} {body : List Piece}
    (hname : IsTagName name) (h : ∀ a ∈ attributes, a.IsQuoted)
    (hbody : IsNested (piecesText body) owners) :
    IsRegion (tagContent name attributes) (piecesText (element name attributes body)) owners := by
  intro r hr
  have hopen := read_opening hr hname h
  obtain ⟨r', hread, hreturns⟩ :=
    hbody ⟨tagContent name attributes :: r.openTags, none, [], none, r.followed⟩ rfl
  have hclose := read_closing hreturns.inside hname hreturns.openTags (tagName_tagContent hname h)
  refine ⟨⟨r.openTags, some (tagContent name attributes), [], none, r'.followed⟩, ?_,
    ⟨rfl, rfl, hreturns.followed⟩, rfl, rfl⟩
  simp [element, piecesText, piecesText_append, TagReader.read_append, hopen, hread, hclose]

end Nesting

end ElementCompiler.Markup
