import Cassette.Json.Value

/-! JSON values as text: compact, without blanks, or laid out with one item to a line
and two spaces to a level. -/

namespace Cassette.Json

/-- A digit below sixteen, in small letters. -/
def hexDigit (n : Nat) : Char := if n < 10 then Char.ofNat (48 + n) else Char.ofNat (87 + n)

/-- A 16-bit unit as an escape. -/
def spellUnit (n : Nat) : List Char :=
  ['\\', 'u', hexDigit (n / 4096 % 16), hexDigit (n / 256 % 16), hexDigit (n / 16 % 16),
    hexDigit (n % 16)]

/-- Quotes, backslashes and control characters are escaped, by a letter if there is one. -/
def spellChar (c : Char) : List Char :=
  if c = '"' then ['\\', '"']
  else if c = '\\' then ['\\', '\\']
  else if c = '\x08' then ['\\', 'b']
  else if c = '\x0c' then ['\\', 'f']
  else if c = '\n' then ['\\', 'n']
  else if c = '\r' then ['\\', 'r']
  else if c = '\t' then ['\\', 't']
  else if c < ' ' then spellUnit c.toNat
  else [c]

def Piece.spell : Piece → List Char
  | char c => spellChar c
  | unit u => spellUnit u.toNat

def quote (pieces : List Piece) : List Char := '"' :: pieces.flatMap Piece.spell ++ ['"']

def Token.spell : Token → List Char
  | .openArray => ['[']
  | .closeArray => [']']
  | .openObject => ['\x7b']
  | .closeObject => ['\x7d']
  | .comma => [',']
  | .colon => [':']
  | .null => ['n', 'u', 'l', 'l']
  | .bool true => ['t', 'r', 'u', 'e']
  | .bool false => ['f', 'a', 'l', 's', 'e']
  | .number lexeme => lexeme
  | .string pieces => quote pieces

namespace Value

mutual

/-- The tokens of a value. -/
def tokens : Value → List Token
  | null => [.null]
  | bool b => [.bool b]
  | number lexeme => [.number lexeme]
  | string pieces => [.string pieces]
  | array [] => [.openArray, .closeArray]
  | array (v :: rest) => .openArray :: (tokens v ++ itemTokens rest)
  | object [] => [.openObject, .closeObject]
  | object ((k, v) :: rest) =>
    .openObject :: .string k :: .colon :: (tokens v ++ memberTokens rest)

/-- The items after the first of an array, and its end. -/
def itemTokens : List Value → List Token
  | [] => [.closeArray]
  | v :: rest => .comma :: (tokens v ++ itemTokens rest)

/-- The members after the first of an object, and its end. -/
def memberTokens : List (List Piece × Value) → List Token
  | [] => [.closeObject]
  | (k, v) :: rest => .comma :: .string k :: .colon :: (tokens v ++ memberTokens rest)

end

/-- A value without blanks. -/
def compact (v : Value) : String := String.ofList (v.tokens.flatMap Token.spell)

/-- A new line at a level. -/
def newLine (level : Nat) : List Char := '\n' :: List.replicate (2 * level) ' '

mutual

/-- A value at a level, one item to a line. -/
def layout (level : Nat) : Value → List Char
  | null => Token.spell .null
  | bool b => Token.spell (.bool b)
  | number lexeme => lexeme
  | string pieces => quote pieces
  | array [] => ['[', ']']
  | array (v :: rest) =>
    '[' :: (newLine (level + 1) ++ layout (level + 1) v ++ layoutItems level rest)
  | object [] => ['\x7b', '\x7d']
  | object ((k, v) :: rest) =>
    '\x7b' :: (newLine (level + 1) ++ quote k ++ [':', ' '] ++ layout (level + 1) v
      ++ layoutMembers level rest)

def layoutItems (level : Nat) : List Value → List Char
  | [] => newLine level ++ [']']
  | v :: rest =>
    ',' :: (newLine (level + 1) ++ layout (level + 1) v ++ layoutItems level rest)

def layoutMembers (level : Nat) : List (List Piece × Value) → List Char
  | [] => newLine level ++ ['\x7d']
  | (k, v) :: rest =>
    ',' :: (newLine (level + 1) ++ quote k ++ [':', ' '] ++ layout (level + 1) v
      ++ layoutMembers level rest)

end

/-- A value with one item to a line. -/
def pretty (v : Value) : String := String.ofList (layout 0 v)

end Value

end Cassette.Json
