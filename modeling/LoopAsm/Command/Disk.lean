/-
The file operations that the command line needs, for any monad that has them, and a set of files
in memory that they can be run on.
-/
import LoopAsm.Error
import LoopAsm.Text.Split
import LoopAsm.Text.Utf8

namespace LoopAsm

open Utf8 (Byte)

/-- File operations. A file is opened before it is read and created before it is written; these
two may fail, reading and writing do not. -/
structure Disk (m : Type → Type) where
  /-- Opens a file for reading. -/
  openFile : String → m (Except IoFault Unit)
  /-- Creates a file for writing, or empties it. -/
  createFile : String → m (Except IoFault Unit)
  /-- The bytes of an open file. -/
  readFile : String → m (List Byte)
  /-- Fills a created file. -/
  writeFile : String → List Byte → m Unit

/-- Files in memory, by name. -/
structure Files where
  entries : List (String × List Byte)
  deriving DecidableEq, Repr, Inhabited

namespace Files

/-- The bytes of a file. -/
def get? (fs : Files) (name : String) : Option (List Byte) :=
  fs.entries.lookup name

/-- The directory part of a name, with its last slash; `none` for a name without one. -/
def directory? (name : String) : Option (List Char) :=
  (Split.atLast? ['/'] name.toList).map fun (dir, _) => dir ++ ['/']

/-- A file can be created wherever its directory is, and a directory is where files are in it. -/
def canCreate (fs : Files) (name : String) : Bool :=
  name ≠ "" &&
    match directory? name with
    | none => true
    | some dir => fs.entries.any fun (other, _) => dir.isPrefixOf other.toList

/-- Gives a file new bytes; a new file comes last. -/
def put (fs : Files) (name : String) (bytes : List Byte) : Files :=
  if (fs.get? name).isSome then
    ⟨fs.entries.map fun (other, old) => (other, if other = name then bytes else old)⟩
  else ⟨fs.entries ++ [(name, bytes)]⟩

/-- The files that are new or have other bytes than in `old`. -/
def changesSince (fs old : Files) : List (String × List Byte) :=
  fs.entries.filter fun (name, bytes) => old.get? name ≠ some bytes

/-- The file operations on files in memory. -/
def disk : Disk (StateM Files) where
  openFile name := fun fs =>
    (if (fs.get? name).isSome then .ok () else .error .notFound, fs)
  createFile name := fun fs =>
    if fs.canCreate name then (.ok (), fs.put name []) else (.error .notFound, fs)
  readFile name := fun fs => ((fs.get? name).getD [], fs)
  writeFile name bytes := fun fs => ((), fs.put name bytes)

end Files

end LoopAsm
