import Cassette.Bytes
import Cassette.Fault
import Cassette.Path

/-! Files by name. A name stands for a file object, and what is open goes on with its
object whatever becomes of the name: writing changes the object, putting a new file
in place gives the name a new object, and removing takes the name alone away. Some
objects may not be opened for writing. -/

namespace Cassette

/-- The components that lead from the current directory to a file or directory. -/
abbrev Place := List (List Char)

structure Store where
  /-- The current directory, as a path from the root. -/
  current : String
  directories : List Place
  names : List (Place × Nat)
  objects : Array Bytes
  /-- The objects that may only be read. -/
  locked : List Nat

/-- What a path leads to. -/
inductive Found
  | directory
  | file (place : Place) (object : Nat)
  /-- Nothing, in a directory that exists. -/
  | vacant (place : Place)
  deriving DecidableEq

namespace Store

def empty (current : String) : Store := ⟨current, [], [], #[], []⟩

/-- The root of the file system. -/
def root : Place := [['/']]

/-- The directory above a directory. Above the current one there are only parents. -/
def above (directory : Place) : Place :=
  if directory = root then root
  else if directory.all (· == Path.parent) then directory ++ [Path.parent]
  else directory.dropLast

/-- Follows components from a directory. -/
def follow (s : Store) : (directory : Place) → List (List Char) → Except FileFault Found
  | _, [] => .ok .directory
  | directory, name :: rest =>
    if name = Path.parent then s.follow (above directory) rest
    else if Path.nameLimit < (String.ofList name).utf8ByteSize then .error .nameTooLong
    else
      let place := directory ++ [name]
      if place ∈ s.directories then s.follow place rest
      else
        match s.names.lookup place with
        | some object => if rest.isEmpty then .ok (.file place object) else .error .notDirectory
        | none => if rest.isEmpty then .ok (.vacant place) else .error .notFound

/-- Where the components of a path are followed from. -/
def origin (path : String) : Place := if Path.isAbsolute path then root else []

/-- What a path leads to. A path that ends in a slash means a directory. -/
def find (s : Store) (path : String) : Except FileFault Found :=
  if path.isEmpty then .error .notFound
  else if '\x00' ∈ path.toList then .error .zeroInPath
  else if Path.sizeLimit < path.utf8ByteSize then .error .nameTooLong
  else do
    match ← s.follow (origin path) (Path.components path) with
    | .file place object =>
      if Path.endsInDirectory path then .error .notDirectory else .ok (.file place object)
    | found => return found

/-- The bytes of an object. -/
def contents (s : Store) (object : Nat) : Bytes := s.objects.getD object #[]

/-- Changes an object. -/
def overwrite (s : Store) (object : Nat) (bytes : Bytes) : Store :=
  { s with objects := s.objects.setIfInBounds object bytes }

/-- Gives a place a new object. -/
def assign (s : Store) (place : Place) (bytes : Bytes) : Store :=
  { s with
    names := (place, s.objects.size) :: s.names.filter (·.1 != place)
    objects := s.objects.push bytes }

/-- The place a path would have if all directories on it were there. -/
def placeOf (path : String) : Place :=
  (Path.components path).foldl
    (fun place name => if name = Path.parent then above place else place ++ [name]) (origin path)

/-- Makes a directory and those above it. -/
def addDirectory (s : Store) (place : Place) : Store :=
  let row := (List.range (place.length + 1)).map place.take
  { s with directories := row ++ s.directories }

/-- Makes a file and the directories above it. -/
def addFile (s : Store) (path : String) (bytes : Bytes) : Store :=
  let place := placeOf path
  (s.addDirectory place.dropLast).assign place bytes

/-- Forbids writing to an object. -/
def lock (s : Store) (object : Nat) : Store := { s with locked := object :: s.locked }

/-- The object that a path names, for reading and, if need be, writing. -/
def resolve (s : Store) (path : String) : Except FileFault Nat := do
  match ← s.find path with
  | .file _ object => return object
  | .directory => throw .isDirectory
  | .vacant _ => throw .notFound

/-- Adds bytes at the end of the file that a path names. -/
def append (s : Store) (path : String) (bytes : Bytes) : Except FileFault Store := do
  let object ← s.resolve path
  return s.overwrite object (s.contents object ++ bytes)

/-- The name of a new file until it takes the place of the old one. -/
def draftName : String := ".tape-tool"

/-- Where a new file is written that is to take the place of the one a path names: in the
same directory, and by its whole path, which may turn out to be too long. -/
def draft (s : Store) (path : String) : Except FileFault String :=
  let place := Path.join (Path.join s.current (Path.directory path)) draftName
  if Path.sizeLimit < place.utf8ByteSize then .error .nameTooLong else .ok place

/-- Puts a new file in the place of the one that a path names. -/
def replace (s : Store) (path : String) (bytes : Bytes) : Except FileFault Store := do
  match ← s.find path with
  | .file place _ | .vacant place => return s.assign place bytes
  | .directory => throw .isDirectory

/-- Writes a file, making it if it is not there. -/
def write (s : Store) (path : String) (bytes : Bytes) : Except FileFault Store := do
  match ← s.find path with
  | .file _ object => return s.overwrite object bytes
  | .vacant place => return s.assign place bytes
  | .directory => throw .isDirectory

/-- Takes a name away. -/
def remove (s : Store) (path : String) : Except FileFault Store := do
  match ← s.find path with
  | .file place _ => return { s with names := s.names.filter (·.1 != place) }
  | .vacant _ => throw .notFound
  | .directory => throw .isDirectory

end Store

end Cassette
