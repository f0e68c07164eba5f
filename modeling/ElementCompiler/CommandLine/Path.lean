import ElementCompiler.Text.Literal

set_option autoImplicit false

/-!
Paths of files. Empty parts and single dots say nothing and are left out; two dots stay, since what
they lead to depends on the files. On disk a name is bytes: UTF-8, except that the halves of
surrogate pairs from `0xDC80` to `0xDCFF` stand for single bytes.
-/

namespace ElementCompiler.CommandLine

open Text

structure Path where
  /-- The slashes that a path from the root begins with. -/
  root : Text
  parts : List Text
  deriving DecidableEq, Repr

/-- The name of a file or directory on disk, or several of them with slashes between. -/
abbrev DiskName := List UInt8

def pointBytes? (c : CodePoint) : Option DiskName :=
  match c with
  | .char c => some (String.utf8EncodeChar c)
  | .half n => if 0x480 ≤ n.val ∧ n.val < 0x500 then some [(n.val - 0x400).toUInt8] else none

/-- The name on disk, unless the text has a half that stands for no byte. -/
def diskName? (s : Text) : Option DiskName := (s.mapM pointBytes?).map List.flatten

/-- A name on disk as text; one that is not UTF-8 is given byte by byte. -/
def DiskName.text (name : DiskName) : Text :=
  (Text.ofUtf8? ⟨name.toArray⟩).getD (name.map fun b =>
    if b < 0x80 then .ofNumber b.toNat else .ofNumber (0xDC00 + b.toNat))

namespace Path

/-- Exactly two slashes at the start are kept, any other number of them is one. -/
def rootOf (text : Text) : Text :=
  match (text.takeWhile (· == .char '/')).length with
  | 0 => ""
  | 2 => "//"
  | _ => "/"

def ofText (text : Text) : Path :=
  ⟨rootOf text, (split "/" text).filter fun part => part != "" && part != "."⟩

def text (p : Path) : Text :=
  if p.root.isEmpty && p.parts.isEmpty then "." else p.root ++ join "/" p.parts

def parent (p : Path) : Path := { p with parts := p.parts.dropLast }

def isAbsolute (p : Path) : Bool := !p.root.isEmpty

/-- The parts as names on disk. -/
def diskParts (p : Path) : List DiskName := p.parts.map fun part => (diskName? part).getD []

/-- How many bytes the whole path has on disk. -/
def diskSize (p : Path) : Nat := ((diskName? p.text).getD []).length

end Path
end ElementCompiler.CommandLine
