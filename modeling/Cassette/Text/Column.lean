/-! Text in columns of a fixed width. What is longer than its column is not cut. -/

namespace Cassette.Text

/-- So many copies of a character. -/
def fill (c : Char) (count : Nat) : String := String.ofList (List.replicate count c)

/-- Text at the left of its column. -/
def padRight (width : Nat) (s : String) : String := s ++ fill ' ' (width - s.length)

/-- Text at the right of its column. -/
def padLeft (width : Nat) (s : String) : String := fill ' ' (width - s.length) ++ s

/-- A number with leading zeros. -/
def zeroPadded (width n : Nat) : String :=
  let digits := toString n
  fill '0' (width - digits.length) ++ digits

end Cassette.Text
