namespace LuaMachine.CommandLine

/-- Why a file cannot be read. -/
inductive FileError
  | missing | denied | notDirectory | isDirectory | nameTooLong
  | other (reason : String)
deriving DecidableEq, Repr

/-- The reason in words. -/
def FileError.message : FileError → String
  | missing => "No such file or directory (os error 2)"
  | denied => "Permission denied (os error 13)"
  | notDirectory => "Not a directory (os error 20)"
  | isDirectory => "Is a directory (os error 21)"
  | nameTooLong => "File name too long (os error 36)"
  | other reason => reason

/-- Directories and files by their names from the root on, and the directory that relative paths start
from. -/
structure FileTree where
  directories : List (List String)
  files : List (List String × List UInt8)
  working : List String

namespace FileTree

/-- Where a path leads. -/
inductive Place
  | directory (names : List String)
  | file (bytes : List UInt8)

/-- The most bytes of a name. -/
def nameLimit : Nat := 255

/-- The most bytes of a path. -/
def pathLimit : Nat := 4095

/-- The names between the slashes of a path, empty ones included. -/
def names (path : String) : List String := path.splitOn "/"

/-- What a directory has under a name. -/
def lookup (t : FileTree) (at_ : List String) (name : String) : Except FileError Place :=
  let target := at_ ++ [name]
  if nameLimit < name.utf8ByteSize then .error .nameTooLong
  else match t.files.lookup target with
    | some bytes => .ok (.file bytes)
    | none => if t.directories.contains target then .ok (.directory target) else .error .missing

/-- Goes one name further. A file has nothing below it, not even itself. -/
def walk (t : FileTree) (place : Place) (name : String) : Except FileError Place :=
  match place with
  | .file _ => .error .notDirectory
  | .directory at_ =>
    if name.isEmpty || name == "." then .ok place
    else if name == ".." then .ok (.directory at_.dropLast)
    else t.lookup at_ name

/-- The contents of the file that a path leads to. -/
def read (t : FileTree) (path : String) : Except FileError (List UInt8) :=
  if path.isEmpty then .error .missing
  else if pathLimit < path.utf8ByteSize then .error .nameTooLong
  else
    let start := if path.toList.head? == some '/' then [] else t.working
    match (names path).foldlM t.walk (.directory start) with
    | .error e => .error e
    | .ok (.directory _) => .error .isDirectory
    | .ok (.file bytes) => .ok bytes

/-- The directories above a file. -/
def above (file : List String) : List (List String) :=
  (List.range file.length).map fun n => file.take n

/-- The directories that every system has. -/
def common : List (List String) :=
  [] :: ["bin", "dev", "etc", "home", "lib", "opt", "proc", "root", "run", "sys", "tmp", "usr", "var"].map
    fun name => [name]

/-- A working directory with some files, given by paths from there, and the empty file of every system. -/
def ofFiles (files : List (String × List UInt8)) : FileTree :=
  let working := ["tmp", "work"]
  let placed := files.map fun (path, bytes) =>
    (working ++ (names path).filter fun name => !(name.isEmpty || name == "."), bytes)
  { directories := working :: common ++ placed.flatMap fun (file, _) => above file
    files := (["dev", "null"], []) :: placed
    working }

end FileTree

end LuaMachine.CommandLine
