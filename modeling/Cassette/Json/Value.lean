import Cassette.Json.Token

/-! JSON values and their shape in tokens. The reader keeps a stack of the arrays and
objects that are open and needs to see each token once. -/

namespace Cassette.Json

/-- A JSON value. A number is kept as it is spelled, the members of an object in the
order they come in. -/
inductive Value
  | null
  | bool (b : Bool)
  | number (lexeme : List Char)
  | string (pieces : List Piece)
  | array (items : List Value)
  | object (members : List (List Piece × Value))

/-- An open array with the items before the coming one, or an open object with the
members before the coming one and its key; the latest first. -/
inductive Frame
  | array (items : List Value)
  | object (members : List (List Piece × Value)) (key : List Piece)

/-- What the reader has and what it waits for. -/
inductive Shape
  /-- A value must come. -/
  | value (stack : List Frame)
  /-- An array has been opened: a value or its end. -/
  | firstItem (stack : List Frame)
  /-- An object has been opened: a key or its end. -/
  | firstKey (stack : List Frame)
  /-- A key must come. -/
  | key (stack : List Frame) (members : List (List Piece × Value))
  | colon (stack : List Frame) (members : List (List Piece × Value)) (key : List Piece)
  /-- A value has come to its end. -/
  | after (stack : List Frame) (v : Value)

namespace Shape

/-- A token where a value must begin. -/
def begin (stack : List Frame) : Token → Option Shape
  | .null => some (after stack .null)
  | .bool b => some (after stack (.bool b))
  | .number lexeme => some (after stack (.number lexeme))
  | .string pieces => some (after stack (.string pieces))
  | .openArray => some (firstItem stack)
  | .openObject => some (firstKey stack)
  | .closeArray | .closeObject | .comma | .colon => none

def step : Shape → Token → Option Shape
  | value stack, t => begin stack t
  | firstItem stack, .closeArray => some (after stack (.array []))
  | firstItem stack, t => begin (.array [] :: stack) t
  | firstKey stack, .closeObject => some (after stack (.object []))
  | firstKey stack, .string k => some (colon stack [] k)
  | key stack members, .string k => some (colon stack members k)
  | colon stack members k, .colon => some (value (.object members k :: stack))
  | after (.array items :: stack) v, .comma => some (value (.array (v :: items) :: stack))
  | after (.array items :: stack) v, .closeArray =>
    some (after stack (.array (v :: items).reverse))
  | after (.object members k :: stack) v, .comma => some (key stack ((k, v) :: members))
  | after (.object members k :: stack) v, .closeObject =>
    some (after stack (.object ((k, v) :: members).reverse))
  | _, _ => none

def run : Shape → List Token → Option Shape
  | s, [] => some s
  | s, t :: rest =>
    match s.step t with
    | none => none
    | some s => run s rest

end Shape

/-- The value that tokens spell. -/
def Value.ofTokens? (tokens : List Token) : Option Value :=
  match Shape.run (.value []) tokens with
  | some (.after [] v) => some v
  | _ => none

/-- The value that a text spells. -/
def Value.parse? (text : String) : Option Value := do
  Value.ofTokens? (← tokens? text.toList)

end Cassette.Json
