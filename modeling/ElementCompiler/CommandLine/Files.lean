import ElementCompiler.CommandLine.Path
import ElementCompiler.Entries
import ElementCompiler.Fault

set_option autoImplicit false

/-!
Reading and writing files. `FileAccess` is what the program may do with files; `FileTree` is a tree
of files in memory with the access to it.
-/

namespace ElementCompiler.CommandLine

structure FileAccess (m : Type → Type) where
  read : Path → m (Except FileProblem ByteArray)
  makeDirectory : Path → m (Except FileProblem Unit)
  isDirectory : Path → m Bool
  write : Path → ByteArray → m (Except FileProblem Unit)

namespace FileAccess

variable {m : Type → Type} [Monad m]

def fault (problem : FileProblem) (p : Path) : Fault := .file problem p.text

/-- Refuses a path that no file can have: it has to have a form on disk, without the byte zero. -/
def checkName (p : Path) : Attempt Unit :=
  match diskName? p.text with
  | none => .error .halfCharacter
  | some name => if name.contains 0 then .error .zeroInPath else .ok ()

def readFile (files : FileAccess m) (p : Path) : ExceptT Fault m ByteArray := do
  ExceptT.mk (pure (checkName p))
  match ← files.read p with
  | .ok bytes => return bytes
  | .error problem => throw (fault problem p)

def writeBytes (files : FileAccess m) (p : Path) (bytes : ByteArray) : ExceptT Fault m Unit := do
  ExceptT.mk (pure (checkName p))
  match ← files.write p bytes with
  | .ok () => return
  | .error problem => throw (fault problem p)

/-- Writes a text as UTF-8; one that has no such form leaves the file empty. -/
def writeFile (files : FileAccess m) (p : Path) (text : Text) : ExceptT Fault m Unit := do
  match text.utf8? with
  | some bytes => files.writeBytes p bytes
  | none =>
    files.writeBytes p .empty
    throw .halfCharacter

/-- What cannot be made is no problem when it is a directory already. -/
def settle (files : FileAccess m) (p : Path) : Except FileProblem Unit → ExceptT Fault m Unit
  | .ok () => return
  | .error .missing => throw (fault .missing p)
  | .error problem => do
    if ← files.isDirectory p then return else throw (fault problem p)

/-- Makes the directory of the parts, which are given from the last to the first, and the
    directories above it as far as they are missing. -/
def makeAbove (files : FileAccess m) (root : Text) : List Text → ExceptT Fault m Unit
  | [] => do settle files ⟨root, []⟩ (← files.makeDirectory ⟨root, []⟩)
  | part :: above => do
    let p : Path := ⟨root, (part :: above).reverse⟩
    match ← files.makeDirectory p with
    | .error .missing =>
      makeAbove files root above
      settle files p (← files.makeDirectory p)
    | made => settle files p made

/-- Makes a directory and the directories above it, unless they are there. -/
def makeDirectories (files : FileAccess m) (p : Path) : ExceptT Fault m Unit := do
  ExceptT.mk (pure (checkName p))
  makeAbove files p.root p.parts.reverse

end FileAccess

inductive FileItem where
  | file (bytes : ByteArray)
  | directory (entries : List (DiskName × FileItem))

namespace FileItem

/-- What a directory holds; a file holds nothing. -/
def entries : FileItem → Entries FileItem DiskName
  | .file _ => []
  | .directory entries => entries

/-- What is below an item along the names. -/
def item? : FileItem → List DiskName → Option FileItem
  | t, [] => some t
  | t, name :: rest => (Entries.get? t.entries name).bind (item? · rest)

/-- The item with another one put below it along the names, in directories that are made for it. -/
def put : FileItem → List DiskName → FileItem → FileItem
  | _, [], item => item
  | t, name :: rest, item =>
    let below := (Entries.get? t.entries name).getD (.directory [])
    .directory (Entries.put t.entries name (put below rest item))

theorem item?_put_self (t : FileItem) (place : List DiskName) (item : FileItem) :
    (t.put place item).item? place = some item := by
  induction place generalizing t with
  | nil => rfl
  | cons name rest ih => simp [put, item?, entries, Entries.get?_put_self, ih]

theorem item?_put_of_ne {name other : DiskName} (h : name ≠ other) (t : FileItem)
    (place rest : List DiskName) (item : FileItem) :
    (t.put (name :: place) item).item? (other :: rest) = t.item? (other :: rest) := by
  have hb : (name == other) = false := by simpa using h
  simp [put, item?, entries, Entries.get?_put_of_ne hb]

mutual

/-- The files in and below an item with their names from there. -/
def files : FileItem → List (List DiskName × ByteArray)
  | .file bytes => [([], bytes)]
  | .directory entries => entryFiles entries

def entryFiles : List (DiskName × FileItem) → List (List DiskName × ByteArray)
  | [] => []
  | (name, item) :: rest => item.files.map (fun f => (name :: f.1, f.2)) ++ entryFiles rest

end

end FileItem

/-- A tree of files; `here` are the names that lead from the root to the current directory. -/
structure FileTree where
  here : List DiskName
  root : FileItem

namespace FileTree

/-- A directory of which no path from elsewhere can tell the name. -/
def nameless : List DiskName := [[46]]

/-- The files in the current directory by their paths, and the directories above them. -/
def ofFiles (files : List (Path × ByteArray)) : FileTree :=
  ⟨nameless, files.foldl
    (fun t f => t.put (nameless ++ f.1.diskParts) (.file f.2))
    (.put (.directory []) nameless (.directory []))⟩

/-- The files in and below the current directory by their paths. -/
def filesHere (t : FileTree) : List (Path × ByteArray) :=
  ((t.root.item? t.here).map FileItem.files).getD [] |>.map fun f =>
    (⟨[], f.1.map DiskName.text⟩, f.2)

/-- The bytes that the name of one file may have. -/
def nameLimit : Nat := 255

/-- A path has fewer bytes than this. -/
def pathLimit : Nat := 4096

def twoDots : DiskName := [46, 46]

/-- Where names lead: `place` are the names from there up to the root, `above` what the directories
    above hold, from the innermost one up. -/
structure Spot where
  above : List (List (DiskName × FileItem))
  place : List DiskName
  item : Option FileItem

/-- Only a directory leads on; the root is above itself. -/
def Spot.walk : List DiskName → Spot → Except FileProblem Spot
  | [], s => .ok s
  | name :: rest, s =>
    match s.item with
    | none => .error .missing
    | some (.file _) => .error .notDirectory
    | some (.directory entries) =>
      if nameLimit < name.length then .error .nameTooLong
      else if name = twoDots then
        match s.above, s.place with
        | outer :: above, _ :: place => walk rest ⟨above, place, some (.directory outer)⟩
        | _, _ => walk rest s
      else walk rest ⟨entries :: s.above, name :: s.place, Entries.get? entries name⟩

def locate (t : FileTree) (p : Path) : Except FileProblem Spot :=
  if pathLimit ≤ p.diskSize then .error .nameTooLong
  else Spot.walk (if p.isAbsolute then p.diskParts else t.here ++ p.diskParts)
    ⟨[], [], some t.root⟩

def read (t : FileTree) (p : Path) : Except FileProblem ByteArray := do
  match (← t.locate p).item with
  | none => .error .missing
  | some (.directory _) => .error .isDirectory
  | some (.file bytes) => .ok bytes

def isDirectory (t : FileTree) (p : Path) : Bool :=
  match (t.locate p).map Spot.item with
  | .ok (some (.directory _)) => true
  | _ => false

/-- The tree with an item put at a spot. -/
def put (t : FileTree) (s : Spot) (item : FileItem) : FileTree :=
  { t with root := t.root.put s.place.reverse item }

def makeDirectory (t : FileTree) (p : Path) : Except FileProblem FileTree := do
  let spot ← t.locate p
  if spot.item.isSome then .error .exists else .ok (t.put spot (.directory []))

def write (t : FileTree) (p : Path) (bytes : ByteArray) : Except FileProblem FileTree := do
  let spot ← t.locate p
  match spot.item with
  | some (.directory _) => .error .isDirectory
  | _ => .ok (t.put spot (.file bytes))

/-- A change of the tree, which stays as it is when the change fails. -/
def change (f : FileTree → Except FileProblem FileTree) :
    StateM FileTree (Except FileProblem Unit) := do
  match f (← get) with
  | .ok t =>
    set t
    return .ok ()
  | .error problem => return .error problem

def access : FileAccess (StateM FileTree) where
  read p := return (← get).read p
  makeDirectory p := change fun t => t.makeDirectory p
  isDirectory p := return (← get).isDirectory p
  write p bytes := change fun t => t.write p bytes

end FileTree
end ElementCompiler.CommandLine
