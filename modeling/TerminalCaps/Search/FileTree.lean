import TerminalCaps.Search.Path

/-! Files: what a search asks of a file system, and a tree of files that answers it. -/
namespace TerminalCaps

/-- Why a file cannot be read. -/
inductive ReadError where
  | notFound
  | notADirectory
  | isADirectory
  /-- A path with a zero byte names no file. -/
  | invalidPath
  deriving DecidableEq, Repr

/-- A file system as far as a search needs it. -/
structure FileSystem where
  isFile : Path → Bool
  read : Path → Except ReadError Bytes

/-- A place in a file tree: the names that lead to it from the root. -/
abbrev Location := List Bytes

inductive Node where
  | directory
  | file (contents : Bytes)
  deriving DecidableEq, Repr

/-- Directories and files by location, and the directory where relative paths begin. Of two nodes
with one location the first counts. -/
structure FileTree where
  nodes : List (Location × Node) := []
  workingDirectory : Location := []
  deriving DecidableEq, Repr

namespace FileTree

variable (t : FileTree)

/-- The node at a location. The root is always a directory. -/
def node? (location : Location) : Option Node :=
  if location = [] then some .directory else t.nodes.lookup location

/-- The tree with a node at a location, in place of the one there may be. -/
def insert (location : Location) (node : Node) : FileTree :=
  { t with nodes := (location, node) :: t.nodes }

/-- The location that a path begins at. -/
def startOf (path : Path) : Location := if path.IsAbsolute then [] else t.workingDirectory

/-- Follows names from a location and makes each directory that is missing on the way, also one that
is left again. -/
def makeDirectories (t : FileTree) (here : Location) : List Bytes → FileTree × Location
  | [] => (t, here)
  | name :: rest =>
    if name = [] ∨ name = ['.'.toUInt8] then makeDirectories t here rest
    else if name = ['.'.toUInt8, '.'.toUInt8] then makeDirectories t here.dropLast rest
    else
      let next := here ++ [name]
      if (t.node? next).isSome then makeDirectories t next rest
      else makeDirectories (t.insert next .directory) next rest

/-- Makes a directory, and those on the way to it. -/
def createDirectory (path : Path) : FileTree :=
  (t.makeDirectories (t.startOf path) path.components).1

/-- Makes a file, and the directories on the way to it. -/
def createFile (path : Path) (contents : Bytes) : FileTree :=
  let (t, directory) := t.makeDirectories (t.startOf path) path.components.dropLast
  t.insert (directory ++ path.components.getLast?.toList) (.file contents)

/-- The location that names lead to, one after another, from a given one. -/
def walk (here : Location) : List Bytes → Except ReadError Location
  | [] => .ok here
  | name :: rest =>
    match t.node? here with
    | some .directory =>
      if name = [] ∨ name = ['.'.toUInt8] then walk here rest
      else if name = ['.'.toUInt8, '.'.toUInt8] then walk here.dropLast rest
      else if (t.node? (here ++ [name])).isSome then walk (here ++ [name]) rest
      else .error .notFound
    | _ => .error .notADirectory

/-- The node that a path leads to. -/
def resolve (path : Path) : Except ReadError Node :=
  if 0 ∈ path then .error .invalidPath
  else if path = [] then .error .notFound
  else do
    match t.node? (← t.walk (t.startOf path) path.components) with
    | some node => return node
    | none => throw .notFound

def isFile (path : Path) : Bool :=
  match t.resolve path with
  | .ok (.file _) => true
  | _ => false

def read (path : Path) : Except ReadError Bytes := do
  match ← t.resolve path with
  | .file contents => return contents
  | .directory => throw .isADirectory

def toFileSystem : FileSystem := ⟨t.isFile, t.read⟩

end FileTree
end TerminalCaps
