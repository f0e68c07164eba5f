import ElementCompiler.Proofs.Entries
import ElementCompiler.Proofs.Import.Binding
import Mathlib.Data.List.Nodup

set_option autoImplicit false

/-!
Import statements read back: from words and marks of punctuation to clauses, from clauses to the
imports that they name. A statement reads back as the first default, the first namespace and all
named imports, so it says what was declared as long as there is no second default or namespace.
-/

namespace ElementCompiler.Import

open Attempt Text Snippet

section Reading

/-- Blanks, marks of punctuation and quotes end a word. -/
def endsWord (c : CodePoint) : Bool :=
  c.is isBlank || [',', '\x7b', '\x7d', '*', ';', '\'', '"'].any fun mark => c = .char mark

/-- A word as names are: not empty, and nothing in it ends a word. -/
def IsUnbroken (s : Text) : Prop := s ≠ [] ∧ ∀ c ∈ s, endsWord c = false

inductive Token where
  | word (s : Text)
  | mark (c : CodePoint)
  deriving DecidableEq, Repr

def wordToken (s : Text) : List Token := if s.isEmpty then [] else [.word s]

/-- The tokens of a text that goes on with the word that was begun. -/
def tokensFrom (word : Text) : Text → List Token
  | [] => wordToken word
  | c :: cs =>
    if endsWord c then
      wordToken word ++ (if c.is isBlank then [] else [.mark c]) ++ tokensFrom [] cs
    else tokensFrom (word ++ [c]) cs

def tokens (s : Text) : List Token := tokensFrom [] s

mutual

/-- The imports that the tokens from a name on declare, up to `from`: names in braces with what they
    are exported as, or a clause of its own kind. -/
def readClauses? : Bool → List Token → Option (Entries Text)
  | true, .word kind :: .word sep :: .word name :: rest =>
    if sep = "as" then (readSeparator? true rest).map ((name, kind) :: ·) else none
  | true, .word name :: rest => (readSeparator? true rest).map ((name, name) :: ·)
  | false, .word name :: rest =>
    (readSeparator? false rest).map ((name, Text.ofString "default") :: ·)
  | false, .mark c :: rest =>
    if c = '*' then readNamespace? rest
    else if c = '\x7b' then readClauses? true rest
    else none
  | _, _ => none

def readNamespace? : List Token → Option (Entries Text)
  | .word sep :: .word name :: rest =>
    if sep = "as" then (readSeparator? false rest).map ((name, Text.ofString "*") :: ·) else none
  | _ => none

def readSeparator? : Bool → List Token → Option (Entries Text)
  | braced, .mark c :: rest =>
    if c = ',' then readClauses? braced rest
    else if braced ∧ c = '\x7d' then readSeparator? false rest
    else none
  | false, [.word w] => if w = "from" then some [] else none
  | _, _ => none

end

/-- The clauses of a statement; one that imports a file for its effects has none. -/
def readAll? (ts : List Token) : Option (Entries Text) :=
  if ts.isEmpty then some [] else readClauses? false ts

/-- A character that stands in quotes as it is. -/
def staysQuoted (quote c : CodePoint) : Bool := c != quote && c != .char '\\' && c != .char '\n'

/-- A quoted path with a semicolon behind it. -/
def readPath? : Text → Option Text
  | [] => none
  | quote :: rest =>
    if rest.dropWhile (staysQuoted quote) = [quote, .char ';'] then
      some (rest.takeWhile (staysQuoted quote))
    else none

/-- The local names of an import statement with their kinds, and the path that it names. -/
def readStatement? (s : Text) : Option (Entries Text × Text) :=
  match tokens (s.takeWhile (!isQuote ·)) with
  | .word keyword :: clauses =>
    if keyword = "import" then do
      let imports ← readAll? clauses
      let path ← readPath? (s.dropWhile (!isQuote ·))
      return (imports, path)
    else none
  | _ => none

end Reading

section Lexing

variable {w s t rest : Text} {c : CodePoint} {ts us : List Token}

theorem tokensFrom_append (h : ∀ c ∈ w, endsWord c = false) (word : Text) :
    tokensFrom word (w ++ s) = tokensFrom (word ++ w) s := by
  induction w generalizing word with
  | nil => rw [List.nil_append, List.append_nil]
  | cons c cs ih =>
    obtain ⟨hc, hcs⟩ := List.forall_mem_cons.mp h
    rw [List.cons_append, tokensFrom, if_neg (by simp [hc]), ih hcs, List.append_assoc]
    rfl

theorem tokensFrom_cons (hc : endsWord c = true) (word : Text) :
    tokensFrom word (c :: rest) = wordToken word ++ tokens (c :: rest) := by
  rw [tokens, tokensFrom, tokensFrom, if_pos hc, if_pos hc, List.append_assoc]
  rfl

@[simp] theorem tokens_blank : tokens (.char ' ' :: rest) = tokens rest := rfl

@[simp] theorem tokens_comma : tokens (.char ',' :: rest) = .mark ',' :: tokens rest := rfl

@[simp] theorem tokens_star : tokens (.char '*' :: rest) = .mark '*' :: tokens rest := rfl

@[simp] theorem tokens_open : tokens (.char '\x7b' :: rest) = .mark '\x7b' :: tokens rest := rfl

@[simp] theorem tokens_close : tokens (.char '\x7d' :: rest) = .mark '\x7d' :: tokens rest := rfl

theorem tokens_append (hw : IsUnbroken w) (hc : endsWord c = true) :
    tokens (w ++ c :: rest) = .word w :: tokens (c :: rest) := by
  rw [tokens, tokensFrom_append hw.2, List.nil_append, tokensFrom_cons hc, wordToken,
    if_neg (by simpa using hw.1)]
  rfl

end Lexing

section Clauses

variable {s name kind path rest : Text} {es : Entries Text} {braced : Bool}

/-- What may stand behind a clause, or behind a name in braces: no word goes on there, and in braces
    the next token is a mark. -/
structure Follows (braced : Bool) (rest : Text) : Prop where
  ends : ∃ c cs, rest = c :: cs ∧ endsWord c = true
  mark : braced = true → ∃ c ts, tokens rest = .mark c :: ts

theorem follows_comma (braced : Bool) (rest : Text) : Follows braced (.char ',' :: rest) where
  ends := ⟨_, _, rfl, by decide⟩
  mark _ := ⟨_, _, tokens_comma⟩

theorem follows_close (rest : Text) : Follows true (.char ' ' :: .char '\x7d' :: rest) where
  ends := ⟨_, _, rfl, by decide⟩
  mark _ := ⟨_, _, by rw [tokens_blank, tokens_close]⟩

theorem tokens_before (hname : IsUnbroken name) (hrest : Follows braced rest) :
    tokens (name ++ rest) = .word name :: tokens rest := by
  obtain ⟨c, cs, rfl, hc⟩ := hrest.ends
  exact tokens_append hname hc

/-- A text declares imports: read as a clause, or as names in braces, it gives them, and reading goes
    on behind it. -/
structure Declares (braced : Bool) (s : Text) (es : Entries Text) : Prop where
  unquoted : ∀ c ∈ s, isQuote c = false
  reads : ∀ rest, Follows braced rest →
    readClauses? braced (tokens (s ++ rest)) = (readSeparator? braced (tokens rest)).map (es ++ ·)

theorem IsUnbroken.unquoted (h : IsUnbroken name) : ∀ c ∈ name, isQuote c = false := by
  intro c hc
  have hends := h.2 c hc
  unfold isQuote
  by_contra hquote
  rw [Bool.not_eq_false, Bool.or_eq_true, decide_eq_true_iff, decide_eq_true_iff] at hquote
  rcases hquote with rfl | rfl
  · exact absurd hends (by decide)
  · exact absurd hends (by decide)

theorem unquoted_append {a b : Text} (ha : ∀ c ∈ a, isQuote c = false)
    (hb : ∀ c ∈ b, isQuote c = false) : ∀ c ∈ a ++ b, isQuote c = false :=
  List.forall_mem_append.mpr ⟨ha, hb⟩

theorem declares_default (hname : IsUnbroken name) :
    Declares false name [(name, Text.ofString "default")] where
  unquoted := hname.unquoted
  reads rest hrest := by
    rw [tokens_before hname hrest, readClauses?]
    rfl

theorem declares_star (hname : IsUnbroken name) :
    Declares false ("* as " ++ name) [(name, Text.ofString "*")] where
  unquoted := unquoted_append (by decide) hname.unquoted
  reads rest hrest := by
    change readClauses? false (tokens (.char '*' :: .char ' ' :: (Text.ofString "as" ++
      .char ' ' :: (name ++ rest)))) = _
    rw [tokens_star, tokens_blank, tokens_append ⟨by decide, by decide⟩ (by decide), tokens_blank,
      tokens_before hname hrest, readClauses?, if_pos rfl, readNamespace?, if_pos rfl]
    rfl

theorem declares_own (hname : IsUnbroken name) : Declares true name [(name, name)] where
  unquoted := hname.unquoted
  reads rest hrest := by
    obtain ⟨c, ts, hmark⟩ := hrest.mark rfl
    rw [tokens_before hname hrest, hmark, readClauses?]
    · rfl
    · simp

theorem declares_renamed (hname : IsUnbroken name) (hkind : IsUnbroken kind) :
    Declares true (kind ++ " as " ++ name) [(name, kind)] where
  unquoted := unquoted_append (unquoted_append hkind.unquoted (by decide)) hname.unquoted
  reads rest hrest := by
    have hassoc : kind ++ " as " ++ name ++ rest =
        kind ++ .char ' ' :: (Text.ofString "as" ++ .char ' ' :: (name ++ rest)) := by
      simp [Text.ofString]
    rw [hassoc, tokens_append hkind (by decide), tokens_blank,
      tokens_append ⟨by decide, by decide⟩ (by decide), tokens_blank, tokens_before hname hrest,
      readClauses?, if_pos rfl]
    rfl

theorem Declares.join {texts : List Text} {ess : List (Entries Text)}
    (h : List.Forall₂ (Declares braced) texts ess) (hne : texts ≠ []) :
    Declares braced (Text.join ", " texts) ess.flatten := by
  induction h with
  | nil => exact absurd rfl hne
  | @cons s es texts ess hs h ih =>
    cases h with
    | nil => simpa using hs
    | @cons t es' texts ess ht h =>
      have hrest := ih (List.cons_ne_nil _ _)
      refine ⟨?_, fun rest hfollows => ?_⟩
      · rw [join_cons_cons]
        exact unquoted_append (unquoted_append hs.unquoted (by decide)) hrest.unquoted
      · have hassoc : Text.join ", " (s :: t :: texts) ++ rest =
            s ++ .char ',' :: .char ' ' :: (Text.join ", " (t :: texts) ++ rest) := by
          simp [join_cons_cons, Text.ofString]
        rw [hassoc, hs.reads _ (follows_comma _ _), tokens_comma, readSeparator?, if_pos rfl,
          tokens_blank, hrest.reads rest hfollows, Option.map_map]
        simp [Function.comp_def]

theorem Declares.braces (h : Declares true s es) :
    Declares false ("\x7b " ++ s ++ " \x7d") es where
  unquoted := unquoted_append (unquoted_append (by decide) h.unquoted) (by decide)
  reads rest _ := by
    have hassoc : Text.ofString "\x7b " ++ s ++ " \x7d" ++ rest =
        .char '\x7b' :: .char ' ' :: (s ++ .char ' ' :: .char '\x7d' :: rest) := by
      simp [Text.ofString]
    change readClauses? false (tokens (Text.ofString "\x7b " ++ s ++ " \x7d" ++ rest)) = _
    rw [hassoc, tokens_open, tokens_blank, readClauses?, if_neg (by decide), if_pos rfl,
      h.reads _ (follows_close rest), tokens_blank, tokens_close, readSeparator?, if_neg (by decide),
      if_pos ⟨rfl, rfl⟩]

/-- A path that can be quoted as it is. -/
def IsQuotable (path : Text) : Prop := ∀ c ∈ path, c ≠ .char '\'' ∧ c ≠ .char '\\' ∧ c ≠ .char '\n'

theorem readPath?_quoted (h : IsQuotable path) :
    readPath? (.char '\'' :: path ++ "';") = some path := by
  have hkept : ∀ c ∈ path, staysQuoted '\'' c = true := by
    intro c hc
    simpa [staysQuoted, and_assoc] using h c hc
  rw [List.cons_append, readPath?, List.takeWhile_append_of_pos hkept,
    List.dropWhile_append_of_pos hkept]
  simp [Text.ofString, staysQuoted]

/-- A statement is read by its clauses and its path, which the first quote tells apart. -/
theorem readStatement?_quoted (hs : ∀ c ∈ s, isQuote c = false) (hpath : IsQuotable path) :
    readStatement? ("import " ++ s ++ .char '\'' :: path ++ "';") =
      (readAll? (tokens s)).map (·, path) := by
  have hhead : ∀ c ∈ Text.ofString "import " ++ s, (!isQuote c) = true := by
    intro c hc
    rw [unquoted_append (by decide) hs c hc]
    rfl
  have htokens : tokens (Text.ofString "import " ++ s) = .word "import" :: tokens s :=
    tokens_append (w := "import") (c := ' ') ⟨by decide, by decide⟩ (by decide)
  have hassoc : Text.ofString "import " ++ s ++ .char '\'' :: path ++ "';" =
      (Text.ofString "import " ++ s) ++ (.char '\'' :: path ++ "';") := by
    simp
  rw [hassoc, readStatement?, List.takeWhile_append_of_pos hhead, List.dropWhile_append_of_pos hhead,
    List.cons_append, List.takeWhile_cons_of_neg (by decide), List.dropWhile_cons_of_neg (by decide),
    List.append_nil, htokens]
  dsimp only
  rw [if_pos rfl, ← List.cons_append, readPath?_quoted hpath]
  cases readAll? (tokens s) <;> rfl

theorem readStatement?_bare (h : IsQuotable path) :
    readStatement? ("import '" ++ path ++ "';") = some ([], path) :=
  readStatement?_quoted (s := []) nofun h

theorem readStatement?_clauses (hs : Declares false s es) (hpath : IsQuotable path) :
    readStatement? ("import " ++ s ++ " from '" ++ path ++ "';") = some (es, path) := by
  have hassoc : Text.ofString "import " ++ s ++ " from '" ++ path ++ "';" =
      Text.ofString "import " ++ (s ++ " from ") ++ .char '\'' :: path ++ "';" := by
    simp [Text.ofString]
  have hfollows : Follows false (Text.ofString " from ") := {
    ends := ⟨_, _, rfl, by decide⟩
    mark := fun hbraced => absurd hbraced Bool.false_ne_true }
  have hreads : readClauses? false (tokens (s ++ " from ")) = some es := by
    rw [hs.reads _ hfollows]
    change some (es ++ []) = some es
    rw [List.append_nil]
  have hall : readAll? (tokens (s ++ " from ")) = some es := by
    rw [readAll?]
    split
    next hempty =>
      rw [List.isEmpty_iff.mp hempty] at hreads
      cases hreads
    next => exact hreads
  change readStatement? (Text.ofString "import " ++ s ++ " from '" ++ path ++ "';") = _
  rw [hassoc, readStatement?_quoted (unquoted_append hs.unquoted (by decide)) hpath, hall]
  rfl

end Clauses

section Stated

variable {imports : Entries Text} {path : Text}

def ofKind (kind : Text) (imports : Entries Text) : Entries Text := imports.filter fun e => e.2 == kind

def byName (imports : Entries Text) : Entries Text :=
  imports.filter fun e => !(e.2 == Text.ofString "default") && !(e.2 == Text.ofString "*")

/-- The imports that a statement is written for: one default, one namespace, all names. -/
def stated (imports : Entries Text) : Entries Text :=
  (ofKind "default" imports).take 1 ++ (ofKind "*" imports).take 1 ++ byName imports

/-- The names are words, and so are the kinds other than a star. -/
def AreWords (imports : Entries Text) : Prop :=
  ∀ e ∈ imports, IsUnbroken e.1 ∧ (e.2 = "*" ∨ IsUnbroken e.2)

def spelled (name kind : Text) : Text := if kind = name then name else kind ++ " as " ++ name

/-- The clauses of a statement in their order. -/
def clauseTexts (imports : Entries Text) : List Text :=
  (Entries.keys ((ofKind "default" imports).take 1)) ++
    (Entries.keys ((ofKind "*" imports).take 1)).map (Text.ofString "* as " ++ ·) ++
    if byName imports = [] then []
    else ["\x7b " ++ join ", " ((byName imports).map fun e => spelled e.1 e.2) ++ " \x7d"]

theorem namedClause_spelled (name kind : Text) :
    namedClause (.text name) (.str kind) = .ok (spelled name kind) := by
  rw [namedClause, spelled]
  split
  next hsame =>
    obtain rfl := Json.str.inj (Decode.equals_str hsame)
    rw [if_pos rfl]
    rfl
  next hother =>
    rw [if_neg]
    · rfl
    · rintro rfl
      exact hother (Bool.and_eq_true_iff.mpr ⟨BEq.rfl (α := Key), rfl⟩)

theorem filter_importMap (p : Key × Json → Bool) :
    (importMap imports).filter p = importMap (imports.filter fun e => p (.text e.1, .str e.2)) :=
  List.filter_map

theorem keys_take_importMap (imports : Entries Text) :
    (Entries.keys (importMap imports)).take 1 = (Entries.keys (imports.take 1)).map .text := by
  simp [Entries.keys, importMap, List.map_take, Function.comp_def]

theorem namedClauses_importMap (imports : Entries Text) : namedClauses (importMap imports) = .ok
    (if byName imports = [] then [] else
      ["\x7b " ++ join ", " ((byName imports).map fun e => spelled e.1 e.2) ++ " \x7d"]) := by
  have hnamed : (importMap imports).filter (fun e => !isDefault e.2 && !isStar e.2) =
      importMap (byName imports) := filter_importMap _
  have htexts : (importMap (byName imports)).mapM (fun e => namedClause e.1 e.2) =
      .ok ((byName imports).map fun e => spelled e.1 e.2) :=
    mapM_map_of_mem fun e _ => namedClause_spelled e.1 e.2
  rw [namedClauses, hnamed, htexts, ok_bind, List.isEmpty_map]
  simp only [List.isEmpty_iff]
  rfl

theorem clauses_importMap (imports : Entries Text) :
    clauses (importMap imports) = .ok (clauseTexts imports) := by
  have hdefault : (importMap imports).filter (fun e => isDefault e.2) =
      importMap (ofKind "default" imports) := filter_importMap _
  have hstar : (importMap imports).filter (fun e => isStar e.2) = importMap (ofKind "*" imports) :=
    filter_importMap _
  have hnames : ((Entries.keys ((ofKind "default" imports).take 1)).map Key.text).mapM
      (fun name => (Json.ofKey name).textOr .wrongKind) =
      .ok ((Entries.keys ((ofKind "default" imports).take 1)).map id) :=
    mapM_map_of_mem fun _ _ => rfl
  rw [clauses, namedClauses_importMap, ok_bind, hdefault, hstar, keys_take_importMap,
    keys_take_importMap, hnames, ok_bind, List.map_id, List.map_map]
  rfl

theorem declares_spelled {name kind : Text} (hname : IsUnbroken name) (hkind : IsUnbroken kind) :
    Declares true (spelled name kind) [(name, kind)] := by
  rw [spelled]
  split
  next hsame =>
    rw [hsame]
    exact declares_own hname
  next => exact declares_renamed hname hkind

theorem declares_byName (h : AreWords imports) (hne : byName imports ≠ []) :
    Declares false ("\x7b " ++ join ", " ((byName imports).map fun e => spelled e.1 e.2) ++ " \x7d")
      (byName imports) := by
  have hnamed : ∀ e ∈ byName imports, Declares true (spelled e.1 e.2) [e] := by
    intro e he
    obtain ⟨hmem, hkind⟩ := List.mem_filter.mp he
    obtain ⟨hname, hword⟩ := h e hmem
    refine declares_spelled hname (hword.resolve_left ?_)
    rintro hstar
    simp [hstar] at hkind
  have hall : List.Forall₂ (Declares true) ((byName imports).map fun e => spelled e.1 e.2)
      ((byName imports).map fun e => [e]) := by
    rw [List.forall₂_map_left_iff, List.forall₂_map_right_iff]
    exact List.forall₂_same.mpr hnamed
  have hjoin := (Declares.join hall (by simpa using hne)).braces
  rwa [← List.flatMap_def, List.flatMap_singleton'] at hjoin

/-- The one import of a kind, if there is any, has a clause of its own. -/
theorem declares_first {kind : Text} {f : Text → Text} (h : AreWords imports)
    (hf : ∀ name, IsUnbroken name → Declares false (f name) [(name, kind)]) :
    List.Forall₂ (Declares false) ((Entries.keys ((ofKind kind imports).take 1)).map f)
      (((ofKind kind imports).take 1).map fun e => [e]) := by
  rw [Entries.keys, List.map_map, List.forall₂_map_left_iff, List.forall₂_map_right_iff]
  refine List.forall₂_same.mpr fun e he => ?_
  obtain ⟨hmem, hkind⟩ := List.mem_filter.mp (List.mem_of_mem_take he)
  have heq : e = (e.1, kind) := by rw [← eq_of_beq hkind]
  rw [heq]
  exact hf e.1 (h e hmem).1

/-- What the clauses of a statement declare, one after the other. -/
def clauseImports (imports : Entries Text) : List (Entries Text) :=
  ((ofKind "default" imports).take 1).map (fun e => [e]) ++
    ((ofKind "*" imports).take 1).map (fun e => [e]) ++
    if byName imports = [] then [] else [byName imports]

theorem flatten_clauseImports (imports : Entries Text) : (clauseImports imports).flatten = stated imports := by
  have hsingle : ∀ es : Entries Text, (es.map fun e => [e]).flatten = es := fun es => by
    rw [← List.flatMap_def, List.flatMap_singleton']
  rw [clauseImports, stated, List.flatten_append, List.flatten_append, hsingle, hsingle]
  split
  next hnone => rw [hnone, List.flatten_nil]
  next => rw [List.flatten_singleton]

theorem clauseTexts_declare (h : AreWords imports) :
    List.Forall₂ (Declares false) (clauseTexts imports) (clauseImports imports) := by
  have hdefault := declares_first (f := id) h fun _ => declares_default
  have hstar := declares_first (f := (Text.ofString "* as " ++ ·)) h fun _ => declares_star
  rw [List.map_id] at hdefault
  refine List.rel_append (List.rel_append hdefault hstar) ?_
  split
  next => exact .nil
  next hne => exact .cons (declares_byName h hne) .nil

theorem statement_importMap (h : AreWords imports) (hpath : IsQuotable path) :
    ∃ s, statement (importMap imports) (.str path) = .ok s ∧
      readStatement? s = some (stated imports, path) := by
  have hdeclare := clauseTexts_declare h
  rw [statement, clauses_importMap, ok_bind]
  split
  next hnone =>
    rw [hnone, List.forall₂_nil_left_iff] at hdeclare
    refine ⟨_, rfl, ?_⟩
    rw [← flatten_clauseImports, hdeclare]
    exact readStatement?_bare hpath
  next hsome =>
    refine ⟨_, rfl, ?_⟩
    rw [← flatten_clauseImports]
    exact readStatement?_clauses (Declares.join hdeclare hsome) hpath

theorem mem_ofKind {kind : Text} {e : Text × Text} : e ∈ ofKind kind imports ↔ e ∈ imports ∧ e.2 = kind := by
  simp [ofKind]

theorem mem_byName {e : Text × Text} : e ∈ byName imports ↔
    e ∈ imports ∧ e.2 ≠ Text.ofString "default" ∧ e.2 ≠ Text.ofString "*" := by
  simp [byName]

theorem star_ne_default : Text.ofString "*" ≠ Text.ofString "default" := by decide

theorem mem_of_mem_stated {e : Text × Text} (h : e ∈ stated imports) : e ∈ imports := by
  rw [stated, List.mem_append, List.mem_append] at h
  rcases h with (h | h) | h
  · exact (mem_ofKind.mp (List.mem_of_mem_take h)).1
  · exact (mem_ofKind.mp (List.mem_of_mem_take h)).1
  · exact (mem_byName.mp h).1

theorem nodup_keys_stated (hkeys : (Entries.keys imports).Nodup) : (Entries.keys (stated imports)).Nodup := by
  have hnodup : imports.Nodup := List.Nodup.of_map Prod.fst hkeys
  have hstated : (stated imports).Nodup := by
    have hfirst : ∀ kind, ((ofKind kind imports).take 1).Nodup := fun kind =>
      (hnodup.filter _).sublist (List.take_sublist 1 _)
    refine List.Nodup.append (List.Nodup.append (hfirst _) (hfirst _) fun e he he' => ?_)
      (hnodup.filter _) fun e he he' => ?_
    · have hdefault := (mem_ofKind.mp (List.mem_of_mem_take he)).2
      have hstar := (mem_ofKind.mp (List.mem_of_mem_take he')).2
      exact star_ne_default (hstar.symm.trans hdefault)
    · have hother := mem_byName.mp he'
      rcases List.mem_append.mp he with he | he
      · exact hother.2.1 (mem_ofKind.mp (List.mem_of_mem_take he)).2
      · exact hother.2.2 (mem_ofKind.mp (List.mem_of_mem_take he)).2
  refine List.Nodup.map_on (fun e he e' he' hsame => ?_) hstated
  exact List.inj_on_of_nodup_map hkeys (mem_of_mem_stated he) (mem_of_mem_stated he') hsame

theorem length_le_one_of_mem_take {α : Type} {l : List α} (hnodup : l.Nodup) (h : ∀ a ∈ l, a ∈ l.take 1) :
    l.length ≤ 1 := by
  match l with
  | [] => exact Nat.zero_le 1
  | [a] => exact le_rfl
  | a :: b :: rest =>
    have hsame : b ∈ [a] := h b (by simp)
    simp [List.mem_singleton.mp hsame] at hnodup

/-- Of the imports of a kind that has one clause, only the first can be stated. -/
theorem mem_take_of_mem_stated {kind : Text} {e : Text × Text} (hkind : kind = "default" ∨ kind = "*")
    (he : e ∈ ofKind kind imports) (h : e ∈ stated imports) : e ∈ (ofKind kind imports).take 1 := by
  have hsame := (mem_ofKind.mp he).2
  rw [stated, List.mem_append, List.mem_append] at h
  rcases h with (h | h) | h
  · have hdefault := (mem_ofKind.mp (List.mem_of_mem_take h)).2
    rwa [← hsame, hdefault]
  · have hstar := (mem_ofKind.mp (List.mem_of_mem_take h)).2
    rwa [← hsame, hstar]
  · obtain ⟨_, hdefault, hstar⟩ := mem_byName.mp h
    rw [hsame] at hdefault hstar
    exact absurd hkind (not_or.mpr ⟨hdefault, hstar⟩)

/-- As maps from local names to kinds, what is stated is what is declared as long as there is no
    second default and no second namespace. -/
theorem stated_eq_iff (hkeys : (Entries.keys imports).Nodup) :
    (∀ name, Entries.get? (stated imports) name = Entries.get? imports name) ↔
      (ofKind "default" imports).length ≤ 1 ∧ (ofKind "*" imports).length ≤ 1 := by
  have hnodup : imports.Nodup := List.Nodup.of_map Prod.fst hkeys
  constructor
  · intro hsame
    have hstated : ∀ e ∈ imports, e ∈ stated imports := fun e he =>
      Entries.mem_of_get?_eq_some ((hsame e.1).trans (Entries.get?_of_mem hkeys he))
    have hsingle : ∀ kind : Text, kind = "default" ∨ kind = "*" → (ofKind kind imports).length ≤ 1 :=
      fun kind hkind => length_le_one_of_mem_take (hnodup.filter _) fun e he =>
        mem_take_of_mem_stated hkind he (hstated e (mem_ofKind.mp he).1)
    exact ⟨hsingle _ (.inl rfl), hsingle _ (.inr rfl)⟩
  · rintro ⟨hdefault, hstar⟩
    refine Entries.get?_congr (nodup_keys_stated hkeys) hkeys fun e => ⟨mem_of_mem_stated, fun he => ?_⟩
    rw [stated, List.take_of_length_le hdefault, List.take_of_length_le hstar, List.mem_append,
      List.mem_append, mem_ofKind, mem_ofKind, mem_byName]
    by_cases hdefault : e.2 = Text.ofString "default"
    · exact .inl (.inl ⟨he, hdefault⟩)
    · by_cases hstar : e.2 = Text.ofString "*"
      · exact .inl (.inr ⟨he, hstar⟩)
      · exact .inr ⟨he, hdefault, hstar⟩

end Stated

/-- The statement of declared imports reads back as the first default, the first namespace and all
    names, from the path as it is. So it binds what was declared, nothing more and nothing else,
    exactly when at most one name is bound to the default and one to the namespace. -/
theorem statement_reads_back (imports : Entries Text) (path : Text) (hkeys : (Entries.keys imports).Nodup)
    (hwords : AreWords imports) (hpath : IsQuotable path) :
    ∃ s read, statement (importMap imports) (.str path) = .ok s ∧ readStatement? s = some (read, path) ∧
      read = (ofKind "default" imports).take 1 ++ (ofKind "*" imports).take 1 ++ byName imports ∧
      ((∀ name, Entries.get? read name = Entries.get? imports name) ↔
        (ofKind "default" imports).length ≤ 1 ∧ (ofKind "*" imports).length ≤ 1) := by
  obtain ⟨s, hs, hread⟩ := statement_importMap hwords hpath
  exact ⟨s, stated imports, hs, hread, rfl, stated_eq_iff hkeys⟩

/-- All forms of a clause in one statement. -/
def mixedImports : Entries Text :=
  [("Lib", "default"), ("helpers", "*"), ("format", "format"), ("fmt", "formatDate")]

theorem mixed_statement_reads_back : ∃ s read,
    statement (importMap mixedImports) (.str "./lib") = .ok s ∧
      readStatement? s = some (read, Text.ofString "./lib") ∧
      ∀ name, Entries.get? read name = Entries.get? mixedImports name := by
  obtain ⟨s, read, hs, hread, _, hsame⟩ :=
    statement_reads_back mixedImports "./lib" (by decide) (by unfold AreWords IsUnbroken; decide)
      (by unfold IsQuotable; decide)
  exact ⟨s, read, hs, hread, hsame.mpr (by decide)⟩

/-- Two local names for the default export of one file. -/
def twoDefaults : Entries Text := [("A", "default"), ("B", "default")]

/-- The second of two names for the default export is dropped. -/
theorem second_default_not_stated : (Entries.keys twoDefaults).Nodup ∧ AreWords twoDefaults ∧
    statement (importMap twoDefaults) (.str "./lib") = .ok "import A from './lib';" ∧
    ∀ read path, readStatement? "import A from './lib';" = some (read, path) →
      Entries.get? read (Text.ofString "B") ≠ Entries.get? twoDefaults "B" := by
  refine ⟨by decide, by unfold AreWords IsUnbroken; decide, rfl, fun read path hread => ?_⟩
  obtain ⟨rfl, _⟩ := Prod.mk.inj (Option.some.inj hread)
  decide

end ElementCompiler.Import
