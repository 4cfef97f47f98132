import Cassette.Path

/-! The two container formats. TAP images have no signature, so the caller says
which format a file has, or the extension of its name does. -/

namespace Cassette

inductive Format
  | tap
  | tzx
  deriving DecidableEq, Repr

namespace Format

/-- The format an extension stands for, in letters of either case. -/
def ofExtension? (extension : List Char) : Option Format :=
  match extension.map Char.toLower with
  | ['t', 'a', 'p'] => some tap
  | ['t', 'z', 'x'] => some tzx
  | _ => none

/-- The format the name of a file suggests. -/
def ofPath? (path : String) : Option Format := do
  ofExtension? (← Path.extension? (← Path.fileName? path))

end Format

end Cassette
