import ElementCompiler.Json.Display
import ElementCompiler.Text.Lines

set_option autoImplicit false

/-!
The text of a module: its imports, exported code and types, default props, decorators with the
view, and the class around its sections.
-/

namespace ElementCompiler.Module

open Text

/-- Everything that a module shows. -/
structure ModuleParts where
  importsAggregator : Bool
  runtimeFeatures : List Text
  codeImports : List Text
  localExports : Text
  types : List Json
  defaultProps : List Text
  autoinject : Bool
  elementName : Text
  view : Text
  name : Text
  sections : List Text

/-- A paragraph with an empty line after it, left out when it is empty. -/
def paragraph (present : Bool) (text : Text) : Text := if present then text ++ "\n\n" else ""

/-- The sections indented, an empty line between neighbours. -/
def classBody : List Text → Text
  | [] => ""
  | [s] => indentSection s ++ "\n"
  | s :: rest => indentSection s ++ "\n\n" ++ classBody rest

def aggregatorImport : Text :=
  "import \x7b EventAggregator \x7d from \"aurelia-event-aggregator\";\n"

def header (p : ModuleParts) : Text :=
  (if p.importsAggregator then aggregatorImport else []) ++
    "import \x7b " ++ join ", " p.runtimeFeatures ++ " \x7d from \"aurelia-framework\";\n\n" ++
    paragraph (!p.codeImports.isEmpty) (join "\n" p.codeImports) ++
    paragraph (!p.localExports.isEmpty) p.localExports ++
    paragraph (!p.types.isEmpty) (join "\n" (p.types.map Json.display)) ++
    paragraph (!p.defaultProps.isEmpty)
      ("const defaultProps = \x7b " ++ join ", " p.defaultProps ++ " \x7d;")

def decorators (p : ModuleParts) : Text :=
  (if p.autoinject then Text.ofString "@autoinject\n" else []) ++
    "@customElement(\"" ++ p.elementName ++ "\")\n@inlineView(`\n" ++ p.view ++ "\n`)\n"

def ModuleParts.text (p : ModuleParts) : Text :=
  header p ++ decorators p ++ "export class " ++ p.name ++ " \x7b\n" ++
    classBody p.sections ++ "\x7d\n"

end ElementCompiler.Module
