import ElementCompiler.Proofs.Markup.Elements
import ElementCompiler.Proofs.Markup.Quoting

set_option autoImplicit false

/-!
Reading an opening tag as HTML does. The name of the tag and its attributes end at white space, a
slash or the closing bracket; the name of an attribute ends at the equals sign that a value in double
quotes follows, and a value ends at the next double quote. A tag is read back as it was written when
no value has a double quote of its own, and only then.
-/

namespace ElementCompiler.Markup

open Text

/-- White space, in HTML. -/
def isSpace (c : CodePoint) : Bool := c == '\t' || c == '\n' || c == '\x0c' || c == '\r' || c == ' '

def endsTagName (c : CodePoint) : Bool := isSpace c || c == '/' || c == '>'

def endsName (c : CodePoint) : Bool := endsTagName c || c == '='

/-- What a reader of a tag is in. -/
inductive TagState
  | between
  | name (read : Text)
  | equals (name : Text)
  | value (name read : Text)

def withAttribute (a : Attribute) (r : List Attribute × Text) : List Attribute × Text := (a :: r.1, r.2)

/-- The attributes up to the closing bracket, with their values as they are written, and what follows
    it. -/
def readAttributes : TagState → Text → Option (List Attribute × Text)
  | _, [] => none
  | .between, c :: cs =>
    if c = '>' then some ([], cs)
    else if endsTagName c then readAttributes .between cs
    else readAttributes (.name [c]) cs
  | .name name, c :: cs =>
    if c = '=' then readAttributes (.equals name) cs
    else if c = '>' then some ([⟨name, none⟩], cs)
    else if endsTagName c then (readAttributes .between cs).map (withAttribute ⟨name, none⟩)
    else readAttributes (.name (name ++ [c])) cs
  | .equals name, c :: cs => if c = '"' then readAttributes (.value name []) cs else none
  | .value name value, c :: cs =>
    if c = '"' then (readAttributes .between cs).map (withAttribute (.of name value))
    else readAttributes (.value name (value ++ [c])) cs

/-- The attribute with its value decoded. -/
def Attribute.decoded (a : Attribute) : Attribute := ⟨a.name, a.value.map decodeQuotes⟩

/-- A tag that was read: its name, its attributes, and the text after it. -/
structure OpeningTag where
  name : Text
  attributes : List Attribute
  rest : Text
  deriving DecidableEq, Repr

/-- The opening tag at the start of a text. Its name begins with a letter. -/
def readTag : Text → Option OpeningTag
  | .char '<' :: cs =>
    let name := cs.takeWhile fun c => !endsTagName c
    if name.head?.any (·.is Char.isAlpha) then
      (readAttributes .between (cs.dropWhile fun c => !endsTagName c)).map fun r =>
        ⟨name, r.1.map Attribute.decoded, r.2⟩
    else none
  | _ => none

example : readTag "<my-field label=\"&quot;a&quot; > b\" hidden />c" =
    some ⟨"my-field", [.of "label" "\"a\" > b", ⟨"hidden", none⟩], "c"⟩ := by decide +kernel

/-- A name that an attribute can have. -/
structure IsAttributeName (name : Text) : Prop where
  nonempty : name ≠ []
  ends : Lacks endsName name

instance (name : Text) : Decidable (IsAttributeName name) :=
  decidable_of_iff (name ≠ [] ∧ ∀ c ∈ name, endsName c = false)
    ⟨fun h => ⟨h.1, h.2⟩, fun h => ⟨h.nonempty, h.ends⟩⟩

/-- A name that a tag can have. -/
structure IsSelector (name : Text) : Prop where
  letter : name.head?.any (·.is Char.isAlpha) = true
  ends : Lacks endsTagName name

instance (name : Text) : Decidable (IsSelector name) :=
  decidable_of_iff (name.head?.any (·.is Char.isAlpha) = true ∧ ∀ c ∈ name, endsTagName c = false)
    ⟨fun h => ⟨h.1, h.2⟩, fun h => ⟨h.letter, h.ends⟩⟩

/-- The value, if there is one, has no double quote. -/
def Attribute.IsEncoded (a : Attribute) : Prop := ∀ v, a.value = some v → CodePoint.char '"' ∉ v

theorem isEncoded_of {name value : Text} :
    (Attribute.of name value).IsEncoded ↔ CodePoint.char '"' ∉ value :=
  ⟨fun h => h value rfl, fun h => by rintro _ ⟨⟩; exact h⟩

/-- What follows an attribute: another one, or the end of the tag. -/
def EndsAttribute (t : Text) : Prop := ∃ c cs, t = c :: cs ∧ endsTagName c = true

section Attributes

variable {a : Attribute} {as : List Attribute} {name s t : Text}

theorem endsTagName_of_endsName {c : CodePoint} (h : endsName c = false) : endsTagName c = false :=
  (Bool.or_eq_false_iff.mp h).1

theorem ne_of_endsName {c d : CodePoint} (h : endsName c = false) (hd : endsName d = true) : c ≠ d := by
  rintro rfl
  rw [h] at hd
  cases hd

theorem readAttributes_name (hs : Lacks endsName s) (name t : Text) :
    readAttributes (.name name) (s ++ t) = readAttributes (.name (name ++ s)) t := by
  induction s generalizing name with
  | nil => rw [List.nil_append, List.append_nil]
  | cons c s ih =>
    rw [lacks_cons] at hs
    rw [List.cons_append, readAttributes, if_neg (ne_of_endsName hs.1 rfl), if_neg (ne_of_endsName hs.1 rfl),
      endsTagName_of_endsName hs.1, if_neg Bool.false_ne_true, ih hs.2, List.append_assoc,
      List.singleton_append]

theorem readAttributes_value (hs : CodePoint.char '"' ∉ s) (name value t : Text) :
    readAttributes (.value name value) (s ++ .char '"' :: t) =
      (readAttributes .between t).map (withAttribute (.of name (value ++ s))) := by
  induction s generalizing value with
  | nil => rw [List.nil_append, List.append_nil, readAttributes, if_pos rfl]
  | cons c s ih =>
    rw [List.mem_cons, not_or] at hs
    rw [List.cons_append, readAttributes, if_neg (Ne.symm hs.1), ih hs.2, List.append_assoc,
      List.singleton_append]

/-- Between attributes a name is read up to its end. -/
theorem readAttributes_between (hname : IsAttributeName name) (t : Text) :
    readAttributes .between (.char ' ' :: (name ++ t)) = readAttributes (.name name) t := by
  obtain ⟨hne, hends⟩ := hname
  cases name with
  | nil => exact absurd rfl hne
  | cons c name =>
    rw [lacks_cons] at hends
    rw [readAttributes, if_neg (by decide), if_pos (by decide), List.cons_append, readAttributes,
      if_neg (ne_of_endsName hends.1 rfl), endsTagName_of_endsName hends.1, if_neg Bool.false_ne_true,
      readAttributes_name hends.2, List.singleton_append]

theorem text_valued (name value t : Text) : (Attribute.of name value).text ++ t =
    .char ' ' :: (name ++ .char '=' :: .char '"' :: (value ++ .char '"' :: t)) := by
  simp [Attribute.text, Attribute.of, ofString]

theorem text_bare (name t : Text) : (Attribute.mk name none).text ++ t = .char ' ' :: (name ++ t) := by
  simp [Attribute.text, ofString]

/-- A value is read up to its first double quote. -/
theorem readAttributes_valued (hname : IsAttributeName name) (hs : CodePoint.char '"' ∉ s) (t : Text) :
    readAttributes .between ((Attribute.of name s).text ++ t) =
      (readAttributes .between t).map (withAttribute (.of name s)) := by
  rw [text_valued, readAttributes_between hname, readAttributes, if_pos rfl, readAttributes, if_pos rfl,
    readAttributes_value hs, List.nil_append]

theorem readAttributes_bare (hname : IsAttributeName name) (ht : EndsAttribute t) :
    readAttributes .between ((Attribute.mk name none).text ++ t) =
      (readAttributes .between t).map (withAttribute ⟨name, none⟩) := by
  obtain ⟨c, cs, rfl, hc⟩ := ht
  have hequals : c ≠ '=' := by
    rintro rfl
    exact absurd hc (by decide)
  have hname' : readAttributes (.name name) (c :: cs) =
      (readAttributes .between (c :: cs)).map (withAttribute ⟨name, none⟩) := by
    simp only [readAttributes, if_neg hequals, hc, if_true]
    split <;> rfl
  rw [text_bare, readAttributes_between hname, hname']

theorem readAttributes_text (hname : IsAttributeName a.name) (ha : a.IsEncoded) (ht : EndsAttribute t) :
    readAttributes .between (a.text ++ t) = (readAttributes .between t).map (withAttribute a) := by
  obtain ⟨name, value⟩ := a
  cases value with
  | none => exact readAttributes_bare hname ht
  | some value => exact readAttributes_valued hname (ha value rfl) t

theorem EndsAttribute.attributesText (ht : EndsAttribute t) (as : List Attribute) :
    EndsAttribute (attributesText as ++ t) := by
  cases as with
  | nil => exact ht
  | cons a as =>
    obtain ⟨name, value⟩ := a
    cases value with
    | none => exact ⟨' ', _, rfl, rfl⟩
    | some value => exact ⟨' ', _, rfl, rfl⟩

/-- Attributes without double quotes in their values are read one after the other. -/
theorem readAttributes_attributesText (hnames : ∀ a ∈ as, IsAttributeName a.name)
    (has : ∀ a ∈ as, a.IsEncoded) (ht : EndsAttribute t) :
    readAttributes .between (attributesText as ++ t) =
      (readAttributes .between t).map fun r => (as ++ r.1, r.2) := by
  induction as with
  | nil => exact Option.map_id'.symm
  | cons a as ih =>
    rw [List.forall_mem_cons] at hnames has
    rw [attributesText, List.append_assoc, readAttributes_text hnames.1 has.1 (ht.attributesText as),
      ih hnames.2 has.2, Option.map_map]
    rfl

/-- Attributes that are read back have no double quotes in their values. -/
theorem isEncoded_of_read (hnames : ∀ a ∈ as, IsAttributeName a.name) (ht : EndsAttribute t)
    {r : List Attribute × Text} (h : readAttributes .between (attributesText as ++ t) = some r)
    (hread : as.map Attribute.decoded <+: r.1.map Attribute.decoded) : ∀ a ∈ as, a.IsEncoded := by
  induction as generalizing r with
  | nil => rintro _ ⟨⟩
  | cons a as ih =>
    rw [List.forall_mem_cons] at hnames ⊢
    rw [attributesText, List.append_assoc] at h
    have ha : a.IsEncoded := by
      obtain ⟨name, value⟩ := a
      rintro v rfl hquote
      obtain ⟨x, y, rfl, hx⟩ := List.eq_append_cons_of_mem hquote
      -- the reader takes the part before the quote for the whole value
      have htext : (Attribute.of name (x ++ .char '"' :: y)).text =
          (Attribute.of name x).text ++ (y ++ [.char '"']) := by
        simp [Attribute.text, Attribute.of, ofString]
      rw [← Attribute.of, htext, List.append_assoc, readAttributes_valued hnames.1 hx] at h
      obtain ⟨r, _, rfl⟩ := Option.map_eq_some_iff.mp h
      have hhead := (List.cons_prefix_cons.mp hread).1
      have hvalue := Option.some.inj (Attribute.mk.inj hhead).2
      have hlength := congrArg List.length hvalue
      have hlt := length_decodeQuotes_lt x y
      omega
    rw [readAttributes_text hnames.1 ha (ht.attributesText as)] at h
    obtain ⟨r, hr, rfl⟩ := Option.map_eq_some_iff.mp h
    exact ⟨ha, ih hnames.2 hr (List.cons_prefix_cons.mp hread).2⟩

end Attributes

section Tags

def Piece.tag : Piece → Text
  | .opening tag _ | .alone tag _ | .closing tag => tag
  | .raw _ => []

variable {p : Piece} {rest : Text}

/-- How a tag ends, after its attributes. -/
def Piece.ending : Piece → Text
  | .alone _ _ => " />"
  | _ => ">"

theorem Piece.text_of_isTag (htag : p.isTag = true) (rest : Text) :
    p.text ++ rest = .char '<' :: (p.tag ++ (attributesText p.attributes ++ (p.ending ++ rest))) := by
  cases p with
  | opening tag as | alone tag as => simp [Piece.text, Piece.tag, Piece.ending, Piece.attributes, ofString]
  | raw | closing => cases htag

theorem endsAttribute_ending (p : Piece) (rest : Text) : EndsAttribute (p.ending ++ rest) := by
  cases p with
  | alone => exact ⟨' ', _, rfl, rfl⟩
  | raw | closing | opening => exact ⟨'>', _, rfl, rfl⟩

theorem readAttributes_ending (p : Piece) (rest : Text) :
    readAttributes .between (p.ending ++ rest) = some ([], rest) := by
  cases p <;> rfl

theorem readTag_eq (htag : p.isTag = true) (hselector : IsSelector p.tag) (rest : Text) :
    readTag (p.text ++ rest) =
      (readAttributes .between (attributesText p.attributes ++ (p.ending ++ rest))).map fun r =>
        ⟨p.tag, r.1.map Attribute.decoded, r.2⟩ := by
  obtain ⟨c, cs, hcs, hc⟩ := (endsAttribute_ending p rest).attributesText p.attributes
  have hname : ∀ d ∈ p.tag, (!endsTagName d) = true := fun d hd => by rw [hselector.ends d hd]; rfl
  have htake : (p.tag ++ c :: cs).takeWhile (fun d => !endsTagName d) = p.tag := by
    rw [List.takeWhile_append_of_pos hname, List.takeWhile_cons_of_neg (by simp [hc]), List.append_nil]
  have hdrop : (p.tag ++ c :: cs).dropWhile (fun d => !endsTagName d) = c :: cs := by
    rw [List.dropWhile_append_of_pos hname, List.dropWhile_cons_of_neg (by simp [hc])]
  rw [Piece.text_of_isTag htag, readTag, hcs, htake, hdrop, if_pos hselector.letter]

/-- A tag is read back exactly when no value in it has a double quote. -/
theorem readTag_text_iff (htag : p.isTag = true) (hselector : IsSelector p.tag)
    (hnames : ∀ a ∈ p.attributes, IsAttributeName a.name) (rest : Text) :
    readTag (p.text ++ rest) = some ⟨p.tag, p.attributes.map Attribute.decoded, rest⟩ ↔
      ∀ a ∈ p.attributes, a.IsEncoded := by
  have hends := endsAttribute_ending p rest
  rw [readTag_eq htag hselector]
  constructor
  · intro h
    obtain ⟨r, hr, hread⟩ := Option.map_eq_some_iff.mp h
    have hattributes : r.1.map Attribute.decoded = p.attributes.map Attribute.decoded :=
      congrArg OpeningTag.attributes hread
    exact isEncoded_of_read hnames hends hr (hattributes ▸ List.prefix_rfl)
  · intro h
    rw [readAttributes_attributesText hnames h hends, readAttributes_ending]
    simp

end Tags

end ElementCompiler.Markup
