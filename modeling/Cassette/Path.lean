/-! Paths as the file system reads them: parts between slashes, where empty parts and
single dots say nothing. The extension of a path is what follows the last dot of its
last part, unless the dot comes first. -/

namespace Cassette.Path

/-- The parts of a text between slashes. -/
def split : List Char → List (List Char)
  | [] => [[]]
  | c :: rest =>
    if c = '/' then [] :: split rest
    else
      match split rest with
      | [] => [[c]]
      | part :: parts => (c :: part) :: parts

/-- The part that leads one directory up. -/
def parent : List Char := ['.', '.']

/-- A part that counts: not empty, and not a single dot. -/
def counts (part : List Char) : Bool := !part.isEmpty && part != ['.']

/-- The parts that count. -/
def components (path : String) : List (List Char) := (split path.toList).filter counts

/-- The path begins at the root. -/
def isAbsolute (path : String) : Bool := path.toList.head? == some '/'

/-- The way to the directory of a file as its path spells it, without what does not count
at the end; a dot if the path has no directory. -/
def directory (path : String) : String :=
  match ((split path.toList).reverse.dropWhile (!counts ·)).tail.dropWhile (!counts ·) with
  | [] => if isAbsolute path then "/" else "."
  | parts => "/".intercalate (parts.reverse.map String.ofList)

/-- A path taken from a directory; one that begins at the root stands for itself. -/
def join (directory path : String) : String :=
  if isAbsolute path then path
  else if directory.toList.getLast? = some '/' then directory ++ path
  else directory ++ "/" ++ path

/-- The most bytes of a name in a path. -/
def nameLimit : Nat := 255

/-- The most bytes of a path. -/
def sizeLimit : Nat := 4095

/-- The path ends in a slash, or in a dot that stands for the directory before it. -/
def endsInDirectory (path : String) : Bool :=
  (split path.toList).getLast?.any (!counts ·)

/-- The last component, if it is a name. -/
def fileName? (path : String) : Option (List Char) :=
  (components path).getLast?.filter (· != parent)

/-- What follows the last dot of a name; a dot that comes first does not count. -/
def extension? (name : List Char) : Option (List Char) :=
  match name.reverse.dropWhile (· != '.') with
  | _ :: _ :: _ => some (name.reverse.takeWhile (· != '.')).reverse
  | _ => none

end Cassette.Path
