import Cassette.Tape
import Cassette.Text.Column

/-! A block in one line: what it is, the name it carries and how long it is. Only a
header carries a name: in a TZX image that is a standard speed block of nineteen
bytes whose flag is zero. -/

namespace Cassette

/-- A header in its place: where its payload starts, its flag, and what it says. -/
structure PlacedHeader where
  offset : Nat
  flag : UInt8
  header : Tap.Header
  deriving DecidableEq

/-- The header a block carries. The payload of a standard speed block has to be read for it. -/
def Tape.headerOf (t : Tape) : Block → Except Fault (Option PlacedHeader)
  | .tap b => .ok (b.header.map fun h => ⟨b.payloadStart, b.flag.getD 0, h⟩)
  | .tzx b =>
    match b.kind with
    | .standardSpeed _ data =>
      if data.length = Tap.headerLength.toNat then do
        let payload ← t.image.excerpt data.offset data.length
        let flag := payload.getD 0 0
        let header := Tap.Header.ofBytes (Vector.ofFn fun i => payload.getD (1 + i.val) 0)
        return if flag = 0 then some ⟨data.offset, flag, header⟩ else none
      else .ok none
    | _ => .ok none

/-- Where the head stands after `headerOf`: behind the payload if that was read. -/
def Tape.headAfterHeaderOf (t : Tape) (b : Block) (head : Nat) : Nat :=
  match b with
  | .tap _ => head
  | .tzx b =>
    match b.kind with
    | .standardSpeed _ data =>
      if data.length = Tap.headerLength.toNat ∧ data.stop ≤ t.length then data.stop else head
    | _ => head

structure Summary where
  ordinal : Nat
  kind : String
  name : Option String
  /-- The payload length, or the duration of a pause. -/
  length : Option Nat
  deriving DecidableEq, Repr

namespace Summary

/-- What a header says the next block holds. -/
def contentName : Tap.Content → String
  | .program => "Program:"
  | .numberArray => "Number array:"
  | .characterArray => "Char array:"
  | .bytes => "Bytes:"
  | .other code => s!"Type {code.toNat}:"

def kindOf : Block → String
  | .tap b => (b.header.map fun h => contentName h.content).getD "--"
  | .tzx b =>
    match b.kind with
    | .pause ms => if ms = 0 then "Stop the tape" else b.kind.tag.name
    | kind => kind.tag.name

def lengthOf : Block → Option Nat
  | .tap b => some b.length.toNat
  | .tzx b =>
    match b.kind with
    | .pause ms => if ms = 0 then none else some ms.toNat
    | kind => kind.data?.map Tzx.Span.length

/-- The summary of block `ordinal`. -/
def ofBlock (t : Tape) (ordinal : Nat) (b : Block) : Except Fault Summary := do
  let header ← t.headerOf b
  return ⟨ordinal, kindOf b, header.map (·.header.displayName), lengthOf b⟩

/-- Blocks count from one in a listing; names and lengths stand in columns. -/
def line (s : Summary) : String :=
  let body :=
    match s.name, s.length with
    | some name, some length =>
      Text.padRight 13 s.kind ++ " " ++ Text.padRight 10 name ++ " "
        ++ Text.padLeft 6 (toString length)
    | some name, none => Text.padRight 13 s.kind ++ " " ++ name
    | none, some length => Text.padRight 24 s.kind ++ " " ++ Text.padLeft 6 (toString length)
    | none, none => s.kind
  Text.zeroPadded 4 (s.ordinal + 1) ++ " " ++ body

end Summary

end Cassette
