import ElementCompiler.Json.Access
import ElementCompiler.Json.Parser
import ElementCompiler.Json.Printer
import ElementCompiler.Text.Blank

set_option autoImplicit false

/-!
The import channel: flat code and records in one text. A record describes one resolved import; on the
channel it is a line of JSON with the marker behind it. It begins at the last brace that opens a line
and whose value runs up to the marker; flat code may stand before it. What follows the last marker is
the code of local exports.
-/

namespace ElementCompiler.Import

/-- What ends a record on the channel. -/
def marker : Text := "/*__polyview_import_record__*/"

/-- One resolved import: its canonical name, the path and markup of a template-level import, the
    statement of a code-level import, and each local name with what it is bound to. -/
structure ImportRecord where
  name : Text
  path : Text
  template : Text
  statement : Text
  imports : Entries Json Key

/-- A record before it goes on the channel, where its parts may be any values. -/
structure RecordDraft where
  name : Json
  path : Json
  template : Json
  statement : Text
  imports : Entries Json Key

def RecordDraft.toJson (d : RecordDraft) : Json :=
  .object [
    ("name", d.name), ("path", d.path), ("template", d.template), ("jsPath", .str d.statement),
    ("imports", .obj d.imports)]

/-- The record as it stands on the channel. -/
def RecordDraft.encode (d : RecordDraft) : Text := Json.print .line d.toJson ++ marker

def ImportRecord.draft (r : ImportRecord) : RecordDraft :=
  ⟨.str r.name, .str r.path, .str r.template, r.statement, r.imports⟩

def ImportRecord.encode (r : ImportRecord) : Text := r.draft.encode

/-- The record that a value describes; it needs a name. -/
def ImportRecord.ofJson (j : Json) : Attempt ImportRecord := do
  let name := match j with
    | .obj fields => (Entries.get? fields (.text "name")).getD .null
    | _ => .null
  if !name.isGiven then .error (.recordWithoutName j)
  else
    let path ← j.fieldD "path" (.str [])
    let template ← j.fieldD "template" (.str [])
    let statement ← j.fieldD "jsPath" (.str [])
    let imports ← ((← j.field "imports").orElse (.obj [])).toFields
    return ⟨name.display, path.display, template.display, statement.display, imports⟩

open Text

inductive ChannelEntry where
  | code (text : Text)
  | record (r : ImportRecord)

structure Channel where
  entries : List ChannelEntry
  localExports : Text

def ChannelEntry.record? : ChannelEntry → Option ImportRecord
  | .code _ => none
  | .record r => some r

def ChannelEntry.code? : ChannelEntry → Option Text
  | .code text => some text
  | .record _ => none

def Channel.records (c : Channel) : List ImportRecord := c.entries.filterMap ChannelEntry.record?

def Channel.rawCode (c : Channel) : List Text := c.entries.filterMap ChannelEntry.code?

/-- The ends of the text from each brace that opens a line; `opens` says whether a line opens
    here. -/
def candidates : Bool → Text → List Text
  | _, [] => []
  | opens, c :: cs =>
    let rest := candidates (c = '\n') cs
    if opens && c = '\x7b' then (c :: cs) :: rest else rest

/-- The value of the first candidate that is one value and nothing else, and its length; else the
    fault of the first refusal met. A whole number that is too long ends the search. -/
def firstRecord (segment : Text) : Option Json.Refusal → List Text → Attempt (Nat × Json)
  | some r, [] => .error (.recordNotJson (r.message segment))
  | none, [] => .error (.segmentWithoutRecord segment)
  | refusal, cs :: rest =>
    match Json.readStart cs with
    | .ok (value, []) => .ok (cs.length, value)
    | .ok (_, _ :: _) => firstRecord segment refusal rest
    | .error (.refused r) => firstRecord segment (refusal.orElse fun _ => some r) rest
    | .error (.integerTooLong digits) => .error (.integerTooLong digits)

/-- The flat code before the record that closes the segment, and the value of the record. -/
def splitRecord (segment : Text) : Attempt (Text × Json) := do
  let (length, value) ← firstRecord segment none (candidates true segment).reverse
  return (segment.take (segment.length - length), value)

/-- The entries of one segment before a marker. -/
def segmentEntries (segment : Text) : Attempt (List ChannelEntry) := do
  let stripped := trim segment
  if stripped.isEmpty then return []
  else
    let (before, value) ← splitRecord stripped
    let flat := trim before
    let record ← ImportRecord.ofJson value
    return if flat.isEmpty then [.record record] else [.code flat, .record record]

def channelEntries : List Text → Attempt (List ChannelEntry)
  | [] => .ok []
  | segment :: rest => do
    let first ← segmentEntries segment
    return first ++ (← channelEntries rest)

def Channel.parse (text : Text) : Attempt Channel := do
  let segments := split marker text
  let entries ← channelEntries segments.dropLast
  return ⟨entries, trim (segments.getLast?.getD [])⟩

end ElementCompiler.Import
