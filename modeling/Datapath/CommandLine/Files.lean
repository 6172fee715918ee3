/-!
# Datapath.CommandLine.Files

Reading files by path.

A command sees the file system as one function, `Files`, from paths to contents or to
the reason why there is none. `Directory.files` is that function for a working
directory held in memory: a path is walked part by part, where empty parts and `.`
stay in place.
-/

namespace Datapath.CommandLine

/-- Why a path cannot be read. -/
inductive FileError
  /-- There is nothing under the path. -/
  | missing
  /-- The path leads to a directory. -/
  | isDirectory
  /-- The path goes on below a file. -/
  | notDirectory
  /-- The path or a part of it is longer than names may be. -/
  | nameTooLong
  /-- The file may not be read. -/
  | denied
  deriving DecidableEq

/-- The message of a file error at a path. -/
def FileError.message (path : String) : FileError → String
  | missing => "ENOENT: no such file or directory, open '" ++ path ++ "'"
  | isDirectory => "EISDIR: illegal operation on a directory, read"
  | notDirectory => "ENOTDIR: not a directory, open '" ++ path ++ "'"
  | nameTooLong => "ENAMETOOLONG: name too long, open '" ++ path ++ "'"
  | denied => "EACCES: permission denied, open '" ++ path ++ "'"

/-- The contents of files by path. -/
abbrev Files := String → Except FileError String

/-! ## A working directory in memory -/

/-- A working directory that holds named files and no other directories. -/
structure Directory where
  entries : List (String × String)

/-- The parts of a path between its slashes. -/
def pathParts (path : List Char) : List (List Char) :=
  path.foldr (fun c parts =>
    match parts with
    | part :: rest => if c = '/' then [] :: part :: rest else (c :: part) :: rest
    | [] => [[c]]) [[]]

/-- The device that reads as an empty file. -/
def nullDevice : String := "/dev/null"

/-- The bytes that one part of a path may have. -/
def partLimit : Nat := 255

/-- The bytes that a path may have. -/
def pathLimit : Nat := 4095

/-- Why a part of a path that names nothing cannot be read. -/
def absent (part : List Char) : FileError :=
  if (String.ofList part).utf8ByteSize > partLimit then .nameTooLong else .missing

namespace Directory

/-- Walks a path that has left the working directory: only its ancestors are known
there. -/
def walkOutside : List (List Char) → Except FileError String
  | [] => throw .isDirectory
  | part :: rest =>
    if part.isEmpty ∨ part = ['.'] ∨ part = ['.', '.'] then walkOutside rest
    else throw (absent part)

/-- Walks a path from the working directory. -/
def walk (d : Directory) : List (List Char) → Except FileError String
  | [] => throw .isDirectory
  | part :: rest =>
    if part.isEmpty ∨ part = ['.'] then walk d rest
    else if part = ['.', '.'] then walkOutside rest
    else match d.entries.lookup (String.ofList part) with
      | none => throw (absent part)
      | some content => if rest.isEmpty then return content else throw .notDirectory

/-- The contents that paths have as seen from a working directory. -/
def files (d : Directory) : Files := fun path =>
  if path = nullDevice then return ""
  else if path.utf8ByteSize > pathLimit then throw .nameTooLong
  else match path.toList with
    | [] => throw .missing
    | '/' :: rest => walkOutside (pathParts rest)
    | cs => d.walk (pathParts cs)

end Directory

end Datapath.CommandLine
