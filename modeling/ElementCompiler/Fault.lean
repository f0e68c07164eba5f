import ElementCompiler.Json.Display

set_option autoImplicit false

/-!
What can go wrong, by cause. `Fault.report` gives the category, the message, the code and the hint
that are shown for each.
-/

namespace ElementCompiler

/-- The categories of faults. The first four carry a code; faults of the others come from values of
    the wrong shape that reach an operation, from transforms, or from the file system. -/
inductive Category where
  | malformed
  | configuration
  | importChannel
  | serialization
  | value
  | transform
  | kind
  | operation
  | key
  | index
  | template
  | encoding
  | unencodable
  | file
  deriving DecidableEq, Repr

def Category.code? : Category → Option Text
  | .malformed => some "IR001"
  | .configuration => some "CFG001"
  | .importChannel => some "IMP001"
  | .serialization => some "SER001"
  | _ => none

/-- A fault as it is shown. -/
structure Report where
  category : Category
  message : Text
  code : Option Text
  hint : Option Text
  deriving DecidableEq, Repr

/-- One line: the message with its code in parentheses, then the hint; what is empty is left out. -/
def Report.line (r : Report) : Text :=
  let code := r.code.getD []
  let hint := r.hint.getD []
  let message := if code.isEmpty then r.message else r.message ++ " (" ++ code ++ ")"
  let parts := if hint.isEmpty then [message] else [message, "Hint: " ++ hint]
  Text.join " " (parts.filter (· != ""))

/-- Why a description is not well formed. -/
inductive Malformation where
  | unnamedComponent
  | unnamedNode (path : Text)
  | loopWithoutCollection (place : Text)
  | bindingWithoutCode (key place : Text)
  | literalNotText (place : Text)
  | branchNotNode (place : Text)
  | unnamedParts (component : Text) (parts : List Text)
  /-- A loop that is found without a collection only when it is rendered. -/
  | loopNotRendered
  deriving DecidableEq, Repr

def Malformation.message : Malformation → Text
  | .unnamedComponent => "Component has no name"
  | .unnamedNode path =>
    "Node at '" ++ (if path.isEmpty then Text.ofString "<root>" else path) ++ "' has no name"
  | .loopWithoutCollection place => "For node at '" ++ place ++ "' has no iterable binding"
  | .bindingWithoutCode key place => "Binding '" ++ key ++ "' on '" ++ place ++ "' has no code"
  | .literalNotText place => "Literal text on '" ++ place ++ "' must be a string"
  | .branchNotNode place => "Else branch of '" ++ place ++ "' is not a node"
  | .unnamedParts component parts =>
    "Component '" ++ component ++ "' is missing names for: " ++ Text.join ", " parts
  | .loopNotRendered => "For node has no iterable binding"

def Malformation.hint? : Malformation → Option Text
  | .unnamedNode _ => some "Every node needs a tag, component or control-flow name"
  | .loopWithoutCollection _ => some "Add an 'each' binding with the collection expression"
  | .loopNotRendered => some "Add an 'each' binding"
  | _ => none

/-- The three sets of names that options are given by. -/
inductive OptionGroup where
  | compile
  | experimental
  | pluginStage
  deriving DecidableEq, Repr

def OptionGroup.text : OptionGroup → Text
  | .compile => "compile"
  | .experimental => "experimental"
  | .pluginStage => "plugin stage"

/-- The names of the group in the order of their characters. -/
def OptionGroup.names : OptionGroup → List Text
  | .compile => ["experimental", "format", "formatter", "import_mapper", "plugins",
      "preserve_file_extensions", "preserve_imports", "suppressed", "target_version"]
  | .experimental => ["inject", "injectables", "outputs"]
  | .pluginStage => ["post_code", "post_ir", "pre_code", "pre_ir"]

/-- Why a file cannot be read or written. -/
inductive FileProblem where
  | missing
  | exists
  | notDirectory
  | isDirectory
  | nameTooLong
  deriving DecidableEq, Repr

def FileProblem.text : FileProblem → Text
  | .missing => "[Errno 2] No such file or directory"
  | .exists => "[Errno 17] File exists"
  | .notDirectory => "[Errno 20] Not a directory"
  | .isDirectory => "[Errno 21] Is a directory"
  | .nameTooLong => "[Errno 36] File name too long"

inductive Fault where
  | malformed (why : Malformation)
  | unknownTargetVersion (value : Json)
  | unknownOptions (group : OptionGroup) (names : List Text)
  /-- No candidate before a marker is JSON; the first problem met, last candidate first. -/
  | recordNotJson (problem : Text)
  | segmentWithoutRecord (segment : Text)
  | recordWithoutName (data : Json)
  | notAComponent (kind : Text)
  | notANode (kind : Text)
  | unknownStateKind (value : Json)
  | unknownBindingMode (value : Json)
  | notJson (path problem : Text)
  /-- A whole number with more digits than are read. -/
  | integerTooLong (digits : Nat)
  /-- A list of pairs with an element that is not a pair. -/
  | notAPair (index length : Nat)
  | unhandledVersion (value : Json)
  | unknownStage (stage : Text)
  | notComponentStage (stage : Text)
  | notCodeStage (stage : Text)
  | unknownParser (parser : Text)
  | invalidValue (message : Text)
  | transformFailed (message : Text)
  /-- A value of the wrong kind reaches an operation that needs text, items or the like. -/
  | wrongKind
  /-- A value is asked for an operation that its kind does not have. -/
  | missingOperation
  | missingKey
  | outOfRange
  /-- A text that is no replacement template is used as one. -/
  | badTemplate
  /-- A replacement template names a group. -/
  | unknownGroup
  | notUnicode
  /-- A text or the name of a file has half of a surrogate pair on its own. -/
  | halfCharacter
  /-- A path has the character zero. -/
  | zeroInPath
  | file (problem : FileProblem) (path : Text)

abbrev Attempt := Except Fault

/-- The most digits that a whole number may be read from. -/
def digitLimit : Nat := 4300

def Category.plain (category : Category) (message : Text) : Report :=
  ⟨category, message, category.code?, none⟩

def Category.hinted (category : Category) (message hint : Text) : Report :=
  ⟨category, message, category.code?, some hint⟩

def Fault.report : Fault → Report
  | .malformed why => ⟨.malformed, why.message, Category.malformed.code?, why.hint?⟩
  | .unknownTargetVersion value =>
    Category.configuration.hinted ("Unknown target version: " ++ value.literal)
      "Choose one of: 1, 2"
  | .unknownOptions group names =>
    Category.configuration.hinted
      ("Unknown " ++ group.text ++ " option(s): " ++ Text.join ", " names)
      ("Recognized options: " ++ Text.join ", " group.names)
  | .recordNotJson problem =>
    Category.importChannel.plain ("Import record is not valid JSON: " ++ problem)
  | .segmentWithoutRecord segment =>
    Category.importChannel.plain
      ("Import channel segment is not a record: " ++ Text.quoted segment)
  | .recordWithoutName data =>
    Category.importChannel.hinted ("Import record has no name: " ++ data.literal)
      "Structured import records need at least a 'name' field"
  | .notAComponent kind =>
    Category.serialization.plain ("Expected a component object, got " ++ kind)
  | .notANode kind => Category.serialization.plain ("Expected a node object, got " ++ kind)
  | .unknownStateKind value =>
    Category.serialization.plain ("Unknown state value type: " ++ value.literal)
  | .unknownBindingMode value =>
    Category.serialization.plain ("Unknown binding type: " ++ value.literal)
  | .notJson path problem =>
    Category.serialization.plain (path ++ " is not valid JSON: " ++ problem)
  | .integerTooLong digits =>
    Category.value.plain ("Exceeds the limit (" ++ toString digitLimit ++
      " digits) for integer string conversion: value has " ++ toString digits ++
      " digits; use sys.set_int_max_str_digits() to increase the limit")
  | .notAPair index length =>
    Category.value.plain ("dictionary update sequence element #" ++ toString index ++
      " has length " ++ toString length ++ "; 2 is required")
  | .unhandledVersion value =>
    Category.value.plain ("Unhandled Aurelia target version: " ++ value.literal)
  | .unknownStage stage =>
    Category.value.plain ("Unknown pipeline stage: " ++ Text.quoted stage)
  | .notComponentStage stage => Category.value.plain (stage ++ " is not an IR stage")
  | .notCodeStage stage => Category.value.plain (stage ++ " is not a code stage")
  | .unknownParser parser =>
    Category.value.plain ("No formatter registered for parser '" ++ parser ++ "'")
  | .invalidValue message => Category.value.plain message
  | .transformFailed message => Category.transform.plain message
  | .wrongKind => Category.kind.plain ""
  | .missingOperation => Category.operation.plain ""
  | .missingKey => Category.key.plain ""
  | .outOfRange => Category.index.plain ""
  | .badTemplate => Category.template.plain ""
  | .unknownGroup => Category.index.plain ""
  | .notUnicode => Category.encoding.plain ""
  | .halfCharacter => Category.unencodable.plain ""
  | .zeroInPath => Category.value.plain "embedded null byte"
  | .file problem path =>
    Category.file.plain (problem.text ++ ": " ++ Text.quoted path)

end ElementCompiler
