import Palettes.Disk
import Palettes.FilePath

/-!
A tree of files in memory, as a disk for the program. A path is walked piece by
piece from the root or the current directory; `..` leads to the directory above,
and whatever stands behind a file's name, be it a slash, asks for a directory.
-/
namespace Palettes

inductive FileNode where
  | directory
  | file (content : ByteArray)

structure FileTree where
  /-- What is at each place; a place is the names that lead to it from the root. -/
  nodes : List (List String × FileNode) := []
  /-- The place of the current directory. -/
  current : List String := []

namespace FileTree

def node? (t : FileTree) (place : List String) : Option FileNode :=
  if place.isEmpty then some .directory else t.nodes.lookup place

/-- The places of the directories on the way to a place, and of the place. -/
def way : List String → List (List String)
  | [] => []
  | name :: names => [name] :: (way names).map (name :: ·)

/-- A directory at a place, unless something is there. -/
def ensure (t : FileTree) (place : List String) : FileTree :=
  if (t.node? place).isSome then t else { t with nodes := (place, .directory) :: t.nodes }

def addDirectory (t : FileTree) (place : List String) : FileTree := (way place).foldl ensure t

def addFile (t : FileTree) (place : List String) (content : ByteArray) : FileTree :=
  let t := t.addDirectory place.dropLast
  { t with nodes := (place, .file content) :: t.nodes }

/-- Bytes in one name, and bytes in a path with the one that ends it. -/
def nameLimit : Nat := 255
def pathLimit : Nat := 4096

/-- Where a piece leads to from a directory. A name that is too long leads nowhere. -/
def stride? (place : List String) (piece : String) : Option (List String) :=
  if piece = "" ∨ piece = "." then some place
  else if piece = ".." then some place.dropLast
  else if nameLimit < piece.utf8ByteSize then none
  else some (place ++ [piece])

/-- Walk pieces from a place. -/
def walk (t : FileTree) : List String → List String → Except ReadFault (List String × FileNode)
  | place, [] =>
    match t.node? place with
    | some n => .ok (place, n)
    | none => .error .notFound
  | place, piece :: pieces =>
    match t.node? place with
    | none => .error .notFound
    | some (.file _) => .error .notDirectory
    | some .directory =>
      match stride? place piece with
      | none => .error .nameTooLong
      | some next => walk t next pieces

/-- What is at a path. -/
def resolve (t : FileTree) (path : String) : Except ReadFault (List String × FileNode) :=
  if path.toList.contains '\x00' then .error .nulCharacter
  else if path.isEmpty then .error .notFound
  else if pathLimit ≤ path.utf8ByteSize then .error .nameTooLong
  else
    let p := FilePath.ofText path
    t.walk (if p.rooted then [] else t.current) p.pieces.reverse

def read (t : FileTree) (path : String) : Except ReadFault String :=
  match t.resolve path with
  | .error fault => .error fault
  | .ok (_, .directory) => .error .isDirectory
  | .ok (_, .file content) =>
    match String.fromUTF8? content with
    | some s => .ok s
    | none => .error .notUnicode

def holds (t : FileTree) (path : String) : Bool :=
  match t.resolve path with
  | .ok _ => true
  | .error _ => false

/-- The text of a place. -/
def placeText (place : List String) : String := "/" ++ String.intercalate "/" place

def disk (t : FileTree) : Disk Id where
  read := t.read
  holds := t.holds
  currentDirectory := some (placeText t.current)

end FileTree

end Palettes
