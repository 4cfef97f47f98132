/-! The tokens of JSON text. The reader takes one character at a time; a number ends
at the first character that cannot go on with it, which is then read anew. A string
is kept as the pieces it is spelled in, so that an escaped half of a surrogate pair
is a fault only for those who want its text. -/

namespace Cassette.Json

/-- One element of a string: a character, or a 16-bit unit written as an escape. -/
inductive Piece
  | char (c : Char)
  | unit (u : UInt16)
  deriving DecidableEq, Repr

namespace Piece

/-- The character of a surrogate pair. -/
def paired (high low : UInt16) : Char :=
  Char.ofNat (0x10000 + (high.toNat - 0xD800) * 0x400 + (low.toNat - 0xDC00))

def isHigh (u : UInt16) : Bool := 0xD800 ≤ u && u < 0xDC00

def isLow (u : UInt16) : Bool := 0xDC00 ≤ u && u < 0xE000

/-- The text that pieces spell, with `high` a first half before them; none if half a
surrogate pair stands alone. -/
def textFrom : (high : Option UInt16) → List Piece → Option (List Char)
  | none, [] => some []
  | some _, [] => none
  | none, char c :: rest => (textFrom none rest).map (c :: ·)
  | some _, char _ :: _ => none
  | none, unit u :: rest =>
    if isHigh u then textFrom (some u) rest
    else if isLow u then none
    else (textFrom none rest).map (Char.ofNat u.toNat :: ·)
  | some high, unit u :: rest =>
    if isLow u then (textFrom none rest).map (paired high u :: ·) else none

def text? (pieces : List Piece) : Option String := (textFrom none pieces).map String.ofList

def ofString (s : String) : List Piece := s.toList.map char

end Piece

inductive Token
  | openArray
  | closeArray
  | openObject
  | closeObject
  | comma
  | colon
  | null
  | bool (b : Bool)
  /-- A number as it is spelled. -/
  | number (lexeme : List Char)
  | string (pieces : List Piece)
  deriving DecidableEq, Repr

/-- What a number has shown so far. -/
inductive NumberStage
  | sign | zero | digits | point | fraction | exponent | exponentSign | power
  deriving DecidableEq, Repr

namespace NumberStage

/-- The number may end here. -/
def complete : NumberStage → Bool
  | zero | digits | fraction | power => true
  | sign | point | exponent | exponentSign => false

def exponentMark (c : Char) : Bool := c == 'e' || c == 'E'

/-- The stage after one more character, if the character belongs to the number. A
leading zero is followed by no digit. -/
def next : NumberStage → Char → Option NumberStage
  | sign, c => if c = '0' then some zero else if c.isDigit then some digits else none
  | zero, c => if c = '.' then some point else if exponentMark c then some exponent else none
  | digits, c =>
    if c.isDigit then some digits
    else if c = '.' then some point
    else if exponentMark c then some exponent
    else none
  | point, c => if c.isDigit then some fraction else none
  | fraction, c =>
    if c.isDigit then some fraction else if exponentMark c then some exponent else none
  | exponent, c =>
    if c = '+' ∨ c = '-' then some exponentSign else if c.isDigit then some power else none
  | exponentSign, c => if c.isDigit then some power else none
  | power, c => if c.isDigit then some power else none

end NumberStage

/-- What the reader is in the middle of. Spelled characters and pieces are kept with
the latest first. -/
inductive Reading
  | gap
  | word (rest : List Char) (token : Token)
  | number (stage : NumberStage) (spelled : List Char)
  | string (pieces : List Piece)
  | escape (pieces : List Piece)
  | hex (pieces : List Piece) (owed : Nat) (value : Nat)
  deriving DecidableEq, Repr

def isBlank (c : Char) : Bool := c == ' ' || c == '\t' || c == '\n' || c == '\r'

/-- The character after a backslash, for the escapes that are one letter long. -/
def shortEscape? : Char → Option Char
  | '"' => some '"'
  | '\\' => some '\\'
  | '/' => some '/'
  | 'b' => some '\x08'
  | 'f' => some '\x0c'
  | 'n' => some '\n'
  | 'r' => some '\r'
  | 't' => some '\t'
  | _ => none

def hexValue? (c : Char) : Option Nat :=
  if c.isDigit then some (c.toNat - '0'.toNat)
  else if 'a' ≤ c ∧ c ≤ 'f' then some (c.toNat - 'a'.toNat + 10)
  else if 'A' ≤ c ∧ c ≤ 'F' then some (c.toNat - 'A'.toNat + 10)
  else none

/-- A token of one character. -/
def mark? : Char → Option Token
  | '[' => some .openArray
  | ']' => some .closeArray
  | '\x7b' => some .openObject
  | '\x7d' => some .closeObject
  | ',' => some .comma
  | ':' => some .colon
  | _ => none

namespace Reading

/-- A character between tokens. -/
def begin (c : Char) : Option (List Token × Reading) :=
  if isBlank c then some ([], gap)
  else
    match mark? c with
    | some token => some ([token], gap)
    | none =>
      if c = '"' then some ([], string [])
      else if c = '-' then some ([], number .sign [c])
      else if c = '0' then some ([], number .zero [c])
      else if c.isDigit then some ([], number .digits [c])
      else if c = 'n' then some ([], word ['u', 'l', 'l'] .null)
      else if c = 't' then some ([], word ['r', 'u', 'e'] (.bool true))
      else if c = 'f' then some ([], word ['a', 'l', 's', 'e'] (.bool false))
      else none

/-- One character: the tokens it completes and what the reader is in then. -/
def step : Reading → Char → Option (List Token × Reading)
  | gap, c => begin c
  | word [] token, c => (begin c).map fun (tokens, r) => (token :: tokens, r)
  | word (d :: rest) token, c => if c = d then some ([], word rest token) else none
  | number stage spelled, c =>
    match stage.next c with
    | some stage => some ([], number stage (c :: spelled))
    | none =>
      if stage.complete then
        (begin c).map fun (tokens, r) => (.number spelled.reverse :: tokens, r)
      else none
  | string pieces, c =>
    if c = '"' then some ([.string pieces.reverse], gap)
    else if c = '\\' then some ([], escape pieces)
    else if c < ' ' then none
    else some ([], string (.char c :: pieces))
  | escape pieces, c =>
    if c = 'u' then some ([], hex pieces 4 0)
    else (shortEscape? c).map fun d => ([], string (.char d :: pieces))
  | hex pieces owed value, c =>
    (hexValue? c).map fun digit =>
      let value := value * 16 + digit
      if owed ≤ 1 then ([], string (.unit (UInt16.ofNat value) :: pieces))
      else ([], hex pieces (owed - 1) value)

/-- The tokens that the end of the text completes. -/
def finish : Reading → Option (List Token)
  | gap => some []
  | word [] token => some [token]
  | number stage spelled => if stage.complete then some [.number spelled.reverse] else none
  | _ => none

/-- The tokens of the rest of a text. -/
def run : Reading → List Char → Option (List Token)
  | r, [] => r.finish
  | r, c :: rest =>
    match r.step c with
    | none => none
    | some (tokens, r) => (run r rest).map (tokens ++ ·)

end Reading

/-- The tokens of a text. -/
def tokens? (text : List Char) : Option (List Token) := Reading.run .gap text

end Cassette.Json
