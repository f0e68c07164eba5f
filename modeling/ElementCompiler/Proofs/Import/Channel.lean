import ElementCompiler.Import.Channel
import ElementCompiler.Proofs.Import.Record
import ElementCompiler.Proofs.Json.Readings
import ElementCompiler.Proofs.Text.Trim

set_option autoImplicit false

/-!
What mappers put on the channel is read back: every record in its place, the flat code between
records as one entry, and the rest as local exports. A record is found in any layout, since a brace
that opens a line inside it begins a value that ends inside it.
-/

namespace ElementCompiler.Import

open Text Json

section Place

variable {s t segment flat before record rest : Text} {c : CodePoint} {b : Bool} {value : Json}

/-- A text of whole lines: it ends with a newline or is empty. -/
def EndsLine (s : Text) : Prop := s = [] ∨ ∃ init, s = init ++ [.char '\n']

theorem EndsLine.tail {c : CodePoint} {cs : Text} (h : EndsLine (c :: cs)) :
    cs = [] ∧ c = .char '\n' ∨ cs ≠ [] ∧ EndsLine cs := by
  obtain ⟨init, hinit⟩ := h.resolve_left (List.cons_ne_nil c cs)
  cases init with
  | nil =>
    obtain ⟨rfl, rfl⟩ := List.cons.inj hinit
    exact Or.inl ⟨rfl, rfl⟩
  | cons d ds =>
    obtain ⟨rfl, rfl⟩ := List.cons.inj hinit
    exact Or.inr ⟨by simp, Or.inr ⟨ds, rfl⟩⟩

/-- Where a line may open in front of a text behind whole lines. -/
def OpensAfter (opens : Bool) (before : Text) : Prop := before = [] ∧ opens = true ∨ before ≠ [] ∧ EndsLine before

theorem opensAfter_true : OpensAfter true before ↔ EndsLine before := by
  cases before with
  | nil => exact ⟨fun _ => .inl rfl, fun _ => .inl ⟨rfl, rfl⟩⟩
  | cons c cs => exact ⟨fun h => (h.resolve_left fun hnil => nomatch hnil.1).2, fun h => .inr ⟨List.cons_ne_nil _ _, h⟩⟩

theorem opensAfter_cons {cs : Text} :
    OpensAfter b (c :: cs) ↔ OpensAfter (decide (c = .char '\n')) cs := by
  constructor
  · rintro (⟨hnil, -⟩ | ⟨-, hends⟩)
    · cases hnil
    · rcases hends.tail with ⟨rfl, rfl⟩ | hcs
      · exact .inl ⟨rfl, by decide⟩
      · exact .inr hcs
  · rintro (⟨rfl, hc⟩ | ⟨hne, hends⟩)
    · exact .inr ⟨List.cons_ne_nil _ _, .inr ⟨[], by rw [of_decide_eq_true hc, List.nil_append]⟩⟩
    · obtain ⟨init, rfl⟩ := hends.resolve_left hne
      exact .inr ⟨List.cons_ne_nil _ _, .inr ⟨c :: init, rfl⟩⟩

/-- After whole lines a brace is a candidate, and those behind it are the ones of what it opens. -/
theorem candidates_line (h : OpensAfter b before) (body : Text) :
    ∃ earlier, candidates b (before ++ .char '\x7b' :: body) =
      earlier ++ (.char '\x7b' :: body) :: candidates false body := by
  induction before generalizing b with
  | nil =>
    have hopens : b = true := by simpa [OpensAfter] using h
    refine ⟨[], ?_⟩
    rw [List.nil_append, candidates, hopens]
    rfl
  | cons c cs ih =>
    obtain ⟨earlier, hearlier⟩ := ih (opensAfter_cons.mp h)
    rw [List.cons_append, candidates, hearlier]
    by_cases hopen : (b && decide (c = .char '\x7b')) = true
    · exact ⟨(c :: (cs ++ .char '\x7b' :: body)) :: earlier, by rw [if_pos hopen]; rfl⟩
    · exact ⟨earlier, if_neg hopen⟩

theorem mem_candidates_cons (h : t ∈ candidates b (c :: s)) :
    (b = true ∧ c = .char '\x7b') ∧ t = c :: s ∨ t ∈ candidates (decide (c = .char '\n')) s := by
  rw [candidates] at h
  split at h
  next hopens =>
    rw [Bool.and_eq_true, decide_eq_true_eq] at hopens
    exact (List.mem_cons.mp h).imp_left fun heq => ⟨hopens, heq⟩
  next => exact .inr h

/-- A candidate is a brace that opens a line, with all that follows it. -/
theorem exists_of_mem_candidates (h : t ∈ candidates b s) :
    t.head? = some (.char '\x7b') ∧ ∃ before, s = before ++ t ∧ OpensAfter b before := by
  induction s generalizing b with
  | nil => cases h
  | cons c cs ih =>
    rcases mem_candidates_cons h with ⟨⟨hb, hc⟩, rfl⟩ | hmem
    · exact ⟨congrArg some hc, [], rfl, .inl ⟨rfl, hb⟩⟩
    · obtain ⟨hhead, before, rfl, hends⟩ := ih hmem
      exact ⟨hhead, c :: before, rfl, opensAfter_cons.mpr hends⟩

theorem mem_candidates_true (h : t ∈ candidates b s) : t ∈ candidates true s := by
  cases b with
  | true => exact h
  | false =>
    cases s with
    | nil => exact h
    | cons c cs =>
      have hmem := (mem_candidates_cons h).resolve_left fun hopens => nomatch hopens.1.1
      rw [candidates]
      split
      next => exact List.mem_cons_of_mem _ hmem
      next => exact hmem

theorem mem_candidates_behind (hc : ¬(b = true ∧ c = .char '\x7b')) (h : t ∈ candidates b (c :: s)) :
    t ∈ candidates true s :=
  mem_candidates_true ((mem_candidates_cons h).resolve_left fun hopens => hc hopens.1)

theorem mem_candidates_opened (h : t ∈ candidates false (c :: s)) : t ∈ candidates true s := by
  refine mem_candidates_behind ?_ h
  rintro ⟨hopens, -⟩
  cases hopens

theorem mem_candidates_onLine (hline : OnLine s rest) (h : t ∈ candidates false s) : t ∈ candidates false rest := by
  obtain ⟨run, rfl, hrun⟩ := hline
  induction run with
  | nil => exact h
  | cons c run ih =>
    rw [List.mem_cons, not_or] at hrun
    have hmem := (mem_candidates_cons h).resolve_left fun hopens => nomatch hopens.1.1
    rw [decide_eq_false fun heq => hrun.1 heq.symm] at hmem
    exact ih hrun.2 hmem

/-- No candidate stands in what is read on one line, its beginning aside. -/
theorem mem_candidates_advances (hline : Advances s rest) (h : t ∈ candidates false s) : t ∈ candidates true rest := by
  obtain ⟨c, cs, rfl, hc, hcs⟩ := hline
  exact mem_candidates_true (mem_candidates_onLine (hcs.cons hc) h)

theorem mem_candidates_skipSpace (h : t ∈ candidates b s) : t ∈ candidates true (skipSpace s) := by
  induction s generalizing b with
  | nil => exact h
  | cons c cs ih =>
    rw [skipSpace]
    cases hc : isSpace c with
    | false =>
      rw [List.dropWhile_cons_of_neg (by simp [hc])]
      exact mem_candidates_true h
    | true =>
      rw [List.dropWhile_cons_of_pos hc]
      refine ih (mem_candidates_behind ?_ h)
      rintro ⟨-, rfl⟩
      cases hc

theorem mem_candidates_token (hspace : skipSpace s = c :: rest) (hc : c ≠ .char '\x7b')
    (h : t ∈ candidates b s) : t ∈ candidates true rest := by
  have hmem := mem_candidates_skipSpace h
  rw [hspace] at hmem
  exact mem_candidates_behind (fun hopens => hc hopens.2) hmem

theorem mem_candidates_fieldValue {start body key behind value : Text}
    (hkey : readString start 0 [] body = .ok (key, behind)) (hcolon : skipSpace behind = .char ':' :: value)
    (h : t ∈ candidates true (.char '"' :: body)) : t ∈ candidates true (skipSpace value) := by
  have hbody := (mem_candidates_cons h).resolve_left fun hopens => nomatch hopens.1.2
  have hbehind := mem_candidates_advances (readString_line hkey) hbody
  exact mem_candidates_skipSpace (mem_candidates_token hcolon (by decide) hbehind)

/-- A value begins here and ends before the rest. -/
def EndsBefore (rest t : Text) : Prop := ∃ value behind, Reads .value t value behind ∧ rest.length < behind.length

theorem EndsBefore.mono {after : Text} (h : EndsBefore after t) (hshort : rest.length < after.length) :
    EndsBefore rest t := by
  obtain ⟨value, behind, hreads, hlt⟩ := h
  exact ⟨value, behind, hreads, hshort.trans hlt⟩

/-- A value inside a longer reading is a candidate itself if it opens a line. -/
theorem mem_candidates_inside {after : Text} (h : Reads .value s value after) (hshort : rest.length < after.length)
    (ih : ∀ t ∈ candidates false s, EndsBefore after t ∨ t ∈ candidates true after)
    (ht : t ∈ candidates true s) : EndsBefore rest t ∨ t ∈ candidates true after := by
  cases s with
  | nil => cases ht
  | cons c cs =>
    rcases mem_candidates_cons ht with ⟨-, rfl⟩ | hmem
    · exact .inl ⟨value, after, h, hshort⟩
    · exact (ih t hmem).imp_left (·.mono hshort)

/-- A candidate behind the beginning of what is read begins a value that ends before it does, or stands in
    the rest. -/
theorem mem_candidates_reads {stage : ReadStage} (h : Reads stage s value rest) :
    ∀ t ∈ candidates stage.isInside s, EndsBefore rest t ∨ t ∈ candidates true rest := by
  induction h with
  | text hstring =>
    intro t ht
    exact .inr (mem_candidates_advances (readString_line hstring) ht)
  | scalar _ _ _ hscalar => exact fun t ht => .inr (mem_candidates_advances (readScalar_line hscalar) ht)
  | noFields hspace | noItems hspace =>
    intro t ht
    exact .inr (mem_candidates_token hspace (by decide) (mem_candidates_opened ht))
  | object _ ih | array _ _ ih =>
    intro t ht
    exact ih t (mem_candidates_skipSpace (mem_candidates_opened ht))
  | lastField hkey hcolon hvalue hend ih =>
    intro t ht
    have hmem := mem_candidates_fieldValue hkey hcolon ht
    rcases mem_candidates_inside hvalue (length_of_skipSpace hend) ih hmem with hearly | hafter
    · exact .inl hearly
    · exact .inr (mem_candidates_token hend (by decide) hafter)
  | field hkey hcolon hvalue hcomma hmore ih ihmore =>
    intro t ht
    have hmem := mem_candidates_fieldValue hkey hcolon ht
    have hshort := hmore.length_lt.trans (length_behind hcomma)
    rcases mem_candidates_inside hvalue hshort ih hmem with hearly | hafter
    · exact .inl hearly
    · exact ihmore t (mem_candidates_skipSpace (mem_candidates_token hcomma (by decide) hafter))
  | lastItem hvalue hend ih =>
    intro t ht
    rcases mem_candidates_inside hvalue (length_of_skipSpace hend) ih ht with hearly | hafter
    · exact .inl hearly
    · exact .inr (mem_candidates_token hend (by decide) hafter)
  | item hvalue hcomma hmore ih ihmore =>
    intro t ht
    have hshort := hmore.length_lt.trans (length_behind hcomma)
    rcases mem_candidates_inside hvalue hshort ih ht with hearly | hafter
    · exact .inl hearly
    · exact ihmore t (mem_candidates_skipSpace (mem_candidates_token hcomma (by decide) hafter))

/-- The search goes on past values with more behind them. -/
theorem firstRecord_append {starts : List Text} (h : ∀ t ∈ starts, EndsBefore [] t) (refusal : Option Json.Refusal)
    (more : List Text) : firstRecord segment refusal (starts ++ more) = firstRecord segment refusal more := by
  induction starts with
  | nil => rfl
  | cons t starts ih =>
    obtain ⟨⟨value, behind, hreads, hlt⟩, hstarts⟩ := List.forall_mem_cons.mp h
    obtain ⟨c, cs, rfl⟩ := List.exists_cons_of_length_pos hlt
    rw [List.cons_append, firstRecord, readStart_eq_ok_iff.mpr hreads]
    exact ih hstarts

theorem exists_of_firstRecord {refusal : Option Json.Refusal} {starts : List Text} {n : Nat}
    (h : firstRecord segment refusal starts = .ok (n, value)) :
    ∃ t ∈ starts, n = t.length ∧ Json.readStart t = .ok (value, []) := by
  fun_induction firstRecord segment refusal starts with
  | case1 => cases h
  | case2 => cases h
  | case3 _ t _ value hread =>
    cases h
    exact ⟨t, List.mem_cons_self, rfl, hread⟩
  | case4 _ _ _ _ _ _ _ ih | case5 _ _ _ _ _ ih =>
    obtain ⟨t, ht, hfound⟩ := ih h
    exact ⟨t, List.mem_cons_of_mem _ ht, hfound⟩
  | case6 => cases h

/-- One value behind flat code in whole lines is cut off it, whatever its layout and whatever the code. -/
theorem splitRecord_append (hflat : EndsLine flat) (hopens : record.head? = some (.char '\x7b'))
    (hread : Json.readStart record = .ok (value, [])) : splitRecord (flat ++ record) = .ok (flat, value) := by
  obtain ⟨body, rfl⟩ := List.head?_eq_some_iff.mp hopens
  obtain ⟨earlier, hearlier⟩ := candidates_line (opensAfter_true.mpr hflat) body
  have hinner : ∀ t ∈ (candidates false body).reverse, EndsBefore [] t := by
    intro t ht
    have hmem := mem_candidates_reads (readStart_eq_ok_iff.mp hread) t (List.mem_reverse.mp ht)
    exact hmem.resolve_right fun hnone => nomatch hnone
  have hfirst : firstRecord (flat ++ .char '\x7b' :: body) none
      (candidates true (flat ++ .char '\x7b' :: body)).reverse =
      .ok ((CodePoint.char '\x7b' :: body).length, value) := by
    rw [hearlier, List.reverse_append, List.reverse_cons, List.append_assoc, firstRecord_append hinner,
      List.singleton_append, firstRecord, hread]
  rw [splitRecord, hfirst]
  change Except.ok ((flat ++ _).take ((flat ++ _).length - _), value) = _
  rw [List.length_append, Nat.add_sub_cancel, List.take_left]

/-- A segment is split into flat code and a value exactly where whole lines end and one value begins with a
    brace and goes on to the end. The value is in any layout, with braces that open lines inside it; the
    flat code is any text, with braces and JSON of its own, whole or broken. -/
theorem splitRecord_eq_ok_iff (segment flat : Text) (value : Json) :
    splitRecord segment = .ok (flat, value) ↔ ∃ record, segment = flat ++ record ∧ EndsLine flat ∧
      record.head? = some (.char '\x7b') ∧ Json.readStart record = .ok (value, []) := by
  constructor
  · intro h
    rw [splitRecord] at h
    cases hfirst : firstRecord segment none (candidates true segment).reverse with
    | error f => rw [hfirst] at h; cases h
    | ok found =>
      obtain ⟨n, w⟩ := found
      rw [hfirst] at h
      obtain ⟨rfl, rfl⟩ := Prod.mk.inj (Except.ok.inj h)
      obtain ⟨record, hmem, rfl, hread⟩ := exists_of_firstRecord hfirst
      obtain ⟨hopens, before, rfl, hbefore⟩ := exists_of_mem_candidates (List.mem_reverse.mp hmem)
      have htake : (before ++ record).take ((before ++ record).length - record.length) = before := by
        rw [List.length_append, Nat.add_sub_cancel, List.take_left]
      exact ⟨record, by rw [htake], by rwa [htake, ← opensAfter_true], hopens, hread⟩
  · rintro ⟨record, rfl, hflat, hopens, hread⟩
    exact splitRecord_append hflat hopens hread

/-- The record is cut off where it begins, not at the object inside it that opens a line. -/
example : (splitRecord "\x7b\"a\n\x7b\x7d\n\x7b\"b\":\n\x7b\"c\": []\x7d\x7d").toOption.map Prod.fst =
    some (ofString "\x7b\"a\n\x7b\x7d\n") := by decide +kernel

end Place

/-- Flat code in whole lines is cut off the line of a record. -/
theorem splitRecord_line (t : TextRecord) {before : Text} (h : EndsLine before) :
    splitRecord (before ++ t.line) =
      .ok (before, .obj (putAll [] (t.fields.map PrintedField.readField))) := by
  obtain ⟨body, hline⟩ := t.line_begins
  exact splitRecord_append h (congrArg List.head? hline) t.readsBack.readStart

theorem endsLine_unlines (texts : List Text) : EndsLine (unlines texts) := by
  by_cases h : texts = []
  · exact Or.inl (by rw [h]; rfl)
  · exact Or.inr ⟨_, unlines_eq_join h⟩

theorem EndsLine.trimStart {s : Text} (h : EndsLine s) : EndsLine (trimStart s) := by
  rcases h with rfl | ⟨init, rfl⟩
  · exact Or.inl rfl
  · rw [Text.trimStart, List.dropWhile_append]
    split
    · exact Or.inl (by decide)
    · exact Or.inr ⟨_, rfl⟩

theorem trim_unlines (texts : List Text) : trim (unlines texts) = trim (join "\n" texts) := by
  by_cases h : texts = []
  · rw [h]; rfl
  · rw [unlines_eq_join h, trim_append_blank (by decide)]

/-- The entry for flat code in front of a record; blank code makes none. -/
def flatEntry (flats : List Text) : List ChannelEntry :=
  if (trim (join "\n" flats)).isEmpty then [] else [.code (trim (join "\n" flats))]

/-- A segment is flat code in whole lines and the line of a record. -/
theorem segmentEntries_line (t : TextRecord) (hname : t.name ≠ []) (flats : List Text) :
    segmentEntries (unlines flats ++ t.line) = .ok (flatEntry flats ++ [.record t.readBack]) := by
  obtain ⟨body, hbegins⟩ := t.line_begins
  obtain ⟨init, hends⟩ := t.line_ends
  have htrim : trim (unlines flats ++ t.line) = trimStart (unlines flats) ++ t.line := by
    rw [trim, hbegins, trimStart_append (by decide), ← hbegins, hends, ← List.append_assoc,
      trimEnd_append (by decide)]
  have hne : (trimStart (unlines flats) ++ t.line).isEmpty = false := by simp [hbegins]
  have hsplit := splitRecord_line t (endsLine_unlines flats).trimStart
  have hflat : trim (trimStart (unlines flats)) = trim (join "\n" flats) := by
    rw [trim_trimStart, trim_unlines]
  rw [segmentEntries, htrim, hne, hsplit]
  change ImportRecord.ofJson (.obj (putAll [] (t.fields.map PrintedField.readField))) >>= (fun record =>
    Except.ok (if (trim (trimStart (unlines flats))).isEmpty then [ChannelEntry.record record]
      else [.code (trim (trimStart (unlines flats))), .record record])) = _
  rw [t.ofJson_read hname, hflat, flatEntry]
  change Except.ok _ = _
  by_cases hblank : (trim (join "\n" flats)).isEmpty = true
  · rw [if_pos hblank, if_pos hblank, List.nil_append]
  · rw [if_neg hblank, if_neg hblank, List.singleton_append]

/-- What a mapper puts on the channel for one import: flat code, or a record made of texts. -/
inductive Output where
  | flat (text : Text)
  | record (t : TextRecord)

namespace Output

def text : Output → Text
  | .flat text => text
  | .record t => t.record.encode

def record? : Output → Option ImportRecord
  | .flat _ => none
  | .record t => some t.record

/-- The marker stands nowhere but behind records, and every record has a name. -/
def IsClear : Output → Prop
  | .flat text => occursIn marker text = false
  | .record t => t.name ≠ [] ∧ ∀ s ∈ t.texts, occursIn marker s = false

/-- Flat code without the marker, or a record with a name for itself and local names that differ
    whose texts do not have the marker and are well paired, as every text is that was read. -/
def IsPlain : Output → Prop
  | .flat text => occursIn marker text = false
  | .record t => t.name ≠ [] ∧ (∀ s ∈ t.texts, occursIn marker s = false ∧ WellPaired s) ∧
      (Entries.keys t.imports).Nodup

end Output

/-- The entries for outputs, after flat code that no record closes yet. -/
def entriesAfter (read : TextRecord → ImportRecord) : List Text → List Output → List ChannelEntry
  | _, [] => []
  | flats, .flat text :: rest => entriesAfter read (flats ++ [text]) rest
  | flats, .record t :: rest => flatEntry flats ++ .record (read t) :: entriesAfter read [] rest

def openFlats : List Text → List Output → List Text
  | flats, [] => flats
  | flats, .flat text :: rest => openFlats (flats ++ [text]) rest
  | _, .record _ :: rest => openFlats [] rest

theorem trim_join_nil_cons (texts : List Text) :
    trim (join "\n" ([] :: texts)) = trim (join "\n" texts) := by
  cases texts with
  | nil => rfl
  | cons t ts => exact trim_cons_blank (c := .char '\n') (by decide) (join "\n" (t :: ts))

/-- After a record the text goes on as if an empty text stood in front of the rest. -/
theorem join_record (flats : List Text) (t : TextRecord) (rest : List Text) :
    join "\n" (flats ++ (Output.record t).text :: rest) =
      unlines flats ++ t.line ++ (marker ++ join "\n" ([] :: rest)) := by
  rw [join_append_cons]
  change unlines flats ++ join "\n" ((t.line ++ marker) :: rest) = _
  cases rest with
  | nil => simp
  | cons s ss =>
    rw [join_cons_cons, join_cons_cons]
    simp

theorem split_record {flats : List Text} (hflats : ∀ s ∈ flats, occursIn marker s = false)
    {t : TextRecord} (ht : ∀ s ∈ t.texts, occursIn marker s = false) (rest : List Text) :
    split marker (join "\n" (flats ++ (Output.record t).text :: rest)) =
      (unlines flats ++ t.line) :: split marker (join "\n" ([] :: rest)) := by
  obtain ⟨init, hends⟩ := t.line_ends
  have hsegment : occursIn marker (unlines flats ++ init ++ [.char '\x7d']) = false := by
    rw [List.append_assoc, ← hends, occursIn_unlines marker_ne_nil (by decide) hflats]
    exact t.line_clear ht
  have hpiece := split_append marker_ne_nil (by decide) hsegment (join "\n" ([] :: rest))
  rw [List.append_assoc (unlines flats), ← hends] at hpiece
  rw [join_record]
  exact hpiece

/-- What the channel has for outputs behind flat code: the entries of all segments that a marker
    ends, and the text behind the last of them. The lead is empty at the beginning of the channel,
    and the empty text behind a record. -/
theorem channel_segments (outputs : List Output) (houtputs : ∀ o ∈ outputs, o.IsClear)
    (lead flats ends : List Text) (hlead : lead = [] ∨ lead = [[]])
    (hflats : ∀ s ∈ flats ++ ends, occursIn marker s = false) :
    ∃ last, channelEntries
        (split marker (join "\n" (lead ++ flats ++ outputs.map Output.text ++ ends))).dropLast =
          .ok (entriesAfter TextRecord.readBack flats outputs) ∧
      (split marker (join "\n" (lead ++ flats ++ outputs.map Output.text ++ ends))).getLast? =
        some last ∧ trim last = trim (join "\n" (openFlats flats outputs ++ ends)) := by
  have htrim : ∀ texts : List Text, trim (join "\n" (lead ++ texts)) = trim (join "\n" texts) := by
    intro texts
    rcases hlead with rfl | rfl
    · rfl
    · exact trim_join_nil_cons texts
  have hclear : ∀ texts : List Text, (∀ s ∈ texts, occursIn marker s = false) →
      ∀ s ∈ lead ++ texts, occursIn marker s = false := by
    intro texts htexts s hs
    rcases List.mem_append.mp hs with hs | hs
    · rcases hlead with rfl | rfl
      · exact absurd hs List.not_mem_nil
      · rw [List.mem_singleton.mp hs]
        exact occursIn_nil marker_ne_nil
    · exact htexts s hs
  induction outputs generalizing lead flats with
  | nil =>
    have hall := occursIn_join marker_ne_nil (by decide) (hclear _ hflats)
    refine ⟨join "\n" (lead ++ (flats ++ ends)), ?_, ?_, htrim _⟩
    · rw [List.map_nil, List.append_nil, List.append_assoc, split_of_clear hall]
      rfl
    · rw [List.map_nil, List.append_nil, List.append_assoc, split_of_clear hall]
      rfl
  | cons o rest ih =>
    have hrest : ∀ p ∈ rest, p.IsClear := fun p hp => houtputs p (List.mem_cons_of_mem o hp)
    have ho := houtputs o List.mem_cons_self
    cases o with
    | flat text =>
      have hmore : ∀ s ∈ flats ++ [text] ++ ends, occursIn marker s = false := by
        intro s hs
        simp only [List.mem_append, List.mem_singleton] at hs
        rcases hs with (hs | rfl) | hs
        · exact hflats s (List.mem_append_left _ hs)
        · exact ho
        · exact hflats s (List.mem_append_right _ hs)
      have hnext := ih hrest lead (flats ++ [text]) hlead hmore htrim hclear
      have hjoin : lead ++ (flats ++ [text]) ++ rest.map Output.text ++ ends =
          lead ++ flats ++ (Output.flat text :: rest).map Output.text ++ ends := by
        simp [Output.text]
      rw [hjoin] at hnext
      exact hnext
    | record t =>
      have hend : ∀ s ∈ ([] : List Text) ++ ends, occursIn marker s = false :=
        fun s hs => hflats s (List.mem_append_right _ hs)
      obtain ⟨last, hentries, hlast, htail⟩ := ih hrest [[]] [] (Or.inr rfl) hend trim_join_nil_cons
        (fun texts htexts s hs => by
          rcases List.mem_cons.mp hs with rfl | hs
          · exact occursIn_nil marker_ne_nil
          · exact htexts s hs)
      have hjoin : lead ++ flats ++ (Output.record t :: rest).map Output.text ++ ends =
          (lead ++ flats) ++ (Output.record t).text :: (rest.map Output.text ++ ends) := by simp
      have hsplit : split marker (join "\n"
          (lead ++ flats ++ (Output.record t :: rest).map Output.text ++ ends)) =
          (unlines (lead ++ flats) ++ t.line) ::
            split marker (join "\n" ([[]] ++ [] ++ rest.map Output.text ++ ends)) := by
        rw [hjoin]
        exact split_record (hclear flats fun s hs => hflats s (List.mem_append_left _ hs)) ho.2 _
      have hne := split_ne_nil marker (join "\n" ([[]] ++ [] ++ rest.map Output.text ++ ends))
      have hflat : flatEntry (lead ++ flats) = flatEntry flats := by
        rw [flatEntry, flatEntry, htrim]
      refine ⟨last, ?_, ?_, htail⟩
      · rw [hsplit, List.dropLast_cons_of_ne_nil hne, channelEntries,
          segmentEntries_line t ho.1, hentries, hflat]
        change Except.ok _ = Except.ok _
        simp [entriesAfter]
      · rw [hsplit, List.getLast?_cons, hlast]
        rfl

/-- The channel is always read, also where a text is read for another. -/
theorem parse_outputs (outputs : List Output) (houtputs : ∀ o ∈ outputs, o.IsClear)
    (ends : List Text) (hends : ∀ s ∈ ends, occursIn marker s = false) :
    Channel.parse (join "\n" (outputs.map Output.text ++ ends)) =
      .ok ⟨entriesAfter TextRecord.readBack [] outputs,
        trim (join "\n" (openFlats [] outputs ++ ends))⟩ := by
  obtain ⟨last, hentries, hlast, htrim⟩ :=
    channel_segments outputs houtputs [] [] ends (Or.inl rfl) hends
  rw [List.nil_append, List.nil_append] at hentries hlast
  rw [Channel.parse, hentries]
  change Except.ok (Channel.mk _ (trim ((split marker _).getLast?.getD []))) = _
  rw [hlast, ← htrim]
  rfl

end ElementCompiler.Import
