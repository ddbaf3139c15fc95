import TapeMachine.CommandLine.Path
import TapeMachine.Text.Quoted

/-!
# Files

A disk is what the program finds when it opens a path: files with their bytes, and directories.
Places are lists of parts from the working directory on. A path is followed part by part, and
everything before its last part has to be a directory.
-/

namespace TapeMachine.CommandLine

/-- A place on the disk, relative to the working directory. -/
abbrev Place := List String

/-- The files and directories at hand. A directory that holds a file or directory need not be
listed. -/
structure Disk where
  files : List (Place × List UInt8) := []
  directories : List Place := []
deriving DecidableEq, Repr

/-- Why a file cannot be read or written. -/
inductive DiskError where
  | notFound
  | notADirectory
  | isADirectory
  | nameTooLong
  | nullByte
deriving DecidableEq, Repr

/-- The wording of an error at the given path. -/
def DiskError.message (path : Path) : DiskError → String
  | .notFound => "[Errno 2] No such file or directory: " ++ Text.quoted path.toString
  | .notADirectory => "[Errno 20] Not a directory: " ++ Text.quoted path.toString
  | .isADirectory => "[Errno 21] Is a directory: " ++ Text.quoted path.toString
  | .nameTooLong => "[Errno 36] File name too long: " ++ Text.quoted path.toString
  | .nullByte => "embedded null byte"

namespace Disk

/-- What is at a place. -/
inductive Node where
  | file (bytes : List UInt8)
  | directory
  | nothing
deriving DecidableEq, Repr

/-- Whether the place is the working directory, one around it, or the top of the disk. -/
def isAround (place : Place) : Bool := place = ["/"] || place.all (· = "..")

/-- What is at a place. -/
def node (d : Disk) (place : Place) : Node :=
  match d.files.lookup place with
  | some bytes => .file bytes
  | none =>
    let known := d.directories ++ d.files.map (·.1)
    if isAround place || known.any place.isPrefixOf then .directory else .nothing

/-- The place that a part leads to. -/
def enter (place : Place) (part : String) : Place :=
  if part = ".." then
    match place.getLast? with
    | none | some ".." => place ++ [part]
    | some "/" => place
    | some _ => place.dropLast
  else place ++ [part]

/-- The most bytes that a part of a path may have. -/
def maxPart : Nat := 255

/-- The most bytes that a path may have. -/
def maxPath : Nat := 4095

/-- The place that parts lead to. -/
def walk (d : Disk) : Place → List String → Except DiskError Place
  | place, [] => .ok place
  | place, part :: parts =>
    match d.node place with
    | .directory =>
      if part.utf8ByteSize ≤ maxPart then d.walk (enter place part) parts
      else .error .nameTooLong
    | .file _ => .error .notADirectory
    | .nothing => .error .notFound

/-- The place that a path leads to. -/
def locate (d : Disk) (path : Path) : Except DiskError Place :=
  if path.toString.contains '\x00' then .error .nullByte
  else if maxPath < path.toString.utf8ByteSize then .error .nameTooLong
  else d.walk (if path.root = "" then [] else ["/"]) path.parts

/-- The bytes of a file. -/
def read (d : Disk) (path : Path) : Except DiskError (List UInt8) := do
  match d.node (← d.locate path) with
  | .file bytes => return bytes
  | .directory => throw .isADirectory
  | .nothing => throw .notFound

/-- Writes a file, in place of one that is there. -/
def write (d : Disk) (path : Path) (bytes : List UInt8) : Except DiskError Disk := do
  let place ← d.locate path
  match d.node place with
  | .directory => throw .isADirectory
  | .file _ =>
    return { d with files := d.files.map fun f => if f.1 = place then (place, bytes) else f }
  | .nothing => return { d with files := d.files ++ [(place, bytes)] }

end Disk

end TapeMachine.CommandLine
