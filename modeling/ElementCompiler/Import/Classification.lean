import ElementCompiler.Import.Channel
import ElementCompiler.Text.Kebab

set_option autoImplicit false

/-!
Records by how the rendered view uses them. A record whose closing tag occurs in the view is a
custom element and imported by the view; the others are imported by the code, and of their names
those that occur in the view become fields of the class.
-/

namespace ElementCompiler.Import

open Text

def closingTag (name : Text) : Text := "</" ++ kebab name ++ ">"

def ImportRecord.isCustomElement (view : Text) (r : ImportRecord) : Bool :=
  occursIn (closingTag r.name) view

structure Classification where
  customElements : List ImportRecord
  codeImports : List ImportRecord
  classFields : List Key

/-- The names that custom elements take. -/
def takenNames (customElements : List ImportRecord) : List Key :=
  customElements.flatMap fun r => .text r.name :: Entries.keys r.imports

/-- The names bound by a record that occur in the view; a name that is no text cannot be looked
    for. -/
def usedNames (view : Text) (r : ImportRecord) : Attempt (List Key) := do
  let names ← (Entries.keys r.imports).mapM fun name => (Json.ofKey name).textOr .wrongKind
  return (names.filter (occursIn · view)).map .text

def classify (records : List ImportRecord) (view : Text) (extra : List Key) :
    Attempt Classification := do
  let customElements := records.filter (ImportRecord.isCustomElement view)
  let codeImports := records.filter fun r => !r.isCustomElement view
  let used ← codeImports.mapM (usedNames view)
  let fields := (used.flatten ++ extra).eraseDups
  let taken := takenNames customElements
  return ⟨customElements, codeImports, fields.filter fun name => !taken.contains name⟩

/-- Flat code and the statements of code-level records, in the order of the channel. -/
def codeStatements (view : Text) (entries : List ChannelEntry) : List Text :=
  entries.filterMap fun
    | .code text => some text
    | .record r =>
      if !r.statement.isEmpty && !r.isCustomElement view then some r.statement else none

/-- The import tag of a custom element. -/
def templateImport (keyword : Text) (r : ImportRecord) : Text :=
  if !r.template.isEmpty then r.template
  else "<" ++ keyword ++ " from=\"" ++ r.path ++ "\"></" ++ keyword ++ ">"

def templateImports (keyword : Text) (customElements : List ImportRecord) : Text :=
  join "\n" (customElements.map (templateImport keyword))

end ElementCompiler.Import
