import Lisp.World

/-!
A tree of files and directories, and reading and writing by path. Paths are relative to the top of
the tree; what lies above it is a directory of which nothing else is known.
-/
namespace Lisp

/-- A path is the list of names on it. -/
structure FileTree where
  files : List (List Text × Text) := []
  directories : List (List Text) := []

namespace FileTree

/-- The pieces of a path between slashes. -/
def pieces : Text → List Text
  | [] => [[]]
  | b :: rest =>
    match pieces rest with
    | piece :: more => if b = 47 then [] :: piece :: more else (b :: piece) :: more
    | [] => [[b]]

/-- Where a walk along a path has come to. -/
inductive Place
  | directory (names : List Text)
  | file (names : List Text) (content : Text)
  /-- Nothing has this name yet in an existing directory. -/
  | vacant (names : List Text)
  | above
  deriving DecidableEq

def nameLimit : Nat := 255

def pathLimit : Nat := 4096

/-- The place with the given names, where all but the last are known to be directories. -/
def placeOf (t : FileTree) (names : List Text) : Place :=
  match t.files.lookup names with
  | some content => .file names content
  | none => if names = [] ∨ t.directories.contains names then .directory names else .vacant names

/-- One piece further. An empty piece and a dot stay in a directory; only in a directory is a name
looked up and found too long. -/
def enter (t : FileTree) (place : Place) (piece : Text) : Except FileError Place :=
  let stays := piece = [] ∨ piece = Text.of "."
  match place with
  | .directory names =>
    if stays then .ok place
    else if piece = Text.of ".." then
      .ok (if names = [] then .above else .directory names.dropLast)
    else if nameLimit < piece.length then .error .nameTooLong
    else .ok (t.placeOf (names ++ [piece]))
  | .file .. => .error .notDirectory
  | .vacant _ => .error .missing
  | .above =>
    if stays ∨ piece = Text.of ".." then .ok .above
    else if nameLimit < piece.length then .error .nameTooLong
    else .error .missing

def walk (t : FileTree) : Place → List Text → Except FileError Place
  | place, [] => .ok place
  | place, piece :: rest => do walk t (← t.enter place piece) rest

/-- Where a path starts, and the pieces to go from there. -/
def start : Text → Place × List Text
  | 47 :: rest => (.above, pieces rest)
  | path => (.directory [], pieces path)

def find (t : FileTree) (path : Text) : Except FileError Place :=
  if path.contains 0 then .error .invalidPath
  else if path = [] then .error .missing
  else if pathLimit ≤ path.length then .error .nameTooLong
  else
    let (place, pieces) := start path
    t.walk place pieces

/-- The content of the file at a path. -/
def read (t : FileTree) (path : Text) : Except FileError Text :=
  match t.find path with
  | .ok (.file _ content) => .ok content
  | .ok (.vacant _) => .error .missing
  | .ok _ => .error .isDirectory
  | .error e => .error e

def addDirectory (t : FileTree) (names : List Text) : FileTree :=
  let parts := (List.range names.length).map fun n => names.take (n + 1)
  { t with directories := t.directories ++ parts.filter fun names => !t.directories.contains names }

def addFile (t : FileTree) (names : List Text) (content : Text) : FileTree :=
  let t := t.addDirectory names.dropLast
  { t with files := (names, content) :: t.files.filter fun file => file.1 ≠ names }

/-- Writes a file anew; a path that cannot be one changes nothing. -/
def write (t : FileTree) (path content : Text) : FileTree :=
  match t.find path with
  | .ok (.file names _) => t.addFile names content
  | .ok (.vacant names) => t.addFile names content
  | _ => t

/-- Walks along a path, making a directory of every name that nothing has yet. -/
def makeDirectories (t : FileTree) (place : Place) : List Text → FileTree
  | [] => t
  | piece :: rest =>
    match t.enter place piece with
    | .ok (.vacant names) => makeDirectories (t.addDirectory names) (.directory names) rest
    | .ok place => makeDirectories t place rest
    | .error _ => t

/-- Makes the directory at a path, and those on the way to it. -/
def makeDirectory (t : FileTree) (path : Text) : FileTree :=
  let (place, pieces) := start path
  t.makeDirectories place pieces

/-- Writes a file, making the directories on the way to it. -/
def makeFile (t : FileTree) (path content : Text) : FileTree :=
  let (place, pieces) := start path
  (t.makeDirectories place pieces.dropLast).write path content

def host (t : FileTree) (clock : Int64) : Host := ⟨t.read, clock⟩

end FileTree

end Lisp
