import Cassette.Bytes

/-! Reading bytes as UTF-8 text, losing what is not text. The reader keeps what a
started character still owes and which range its next byte must fall in; a byte
outside that range ends the character at once, so every longest start of a
character that does not go on becomes one replacement character. -/

namespace Cassette.Text.Utf8

/-- Stands for bytes that are not text. -/
def replacement : Char := '\ufffd'

/-- A started character: the bits so far, how many bytes it owes, and the range the
next of them must fall in. -/
structure Started where
  bits : Nat
  owed : Nat
  low : UInt8
  high : UInt8
  deriving DecidableEq, Repr

/-- What a first byte begins: a whole character, a started one, or nothing. -/
inductive Opening
  | whole (c : Char)
  | started (s : Started)
  | invalid
  deriving DecidableEq, Repr

/-- The narrower ranges after E0, ED, F0 and F4 leave out overlong forms,
surrogates and numbers above 10FFFF. -/
def opening (b : UInt8) : Opening :=
  let started (bits owed : Nat) (low high : UInt8) : Opening := .started ⟨bits, owed, low, high⟩
  if b < 0x80 then .whole (Char.ofNat b.toNat)
  else if b < 0xC2 then .invalid
  else if b < 0xE0 then started (b.toNat - 0xC0) 1 0x80 0xBF
  else if b = 0xE0 then started 0 2 0xA0 0xBF
  else if b = 0xED then started 0xD 2 0x80 0x9F
  else if b < 0xF0 then started (b.toNat - 0xE0) 2 0x80 0xBF
  else if b = 0xF0 then started 0 3 0x90 0xBF
  else if b < 0xF4 then started (b.toNat - 0xF0) 3 0x80 0xBF
  else if b = 0xF4 then started 4 3 0x80 0x8F
  else .invalid

/-- A first byte: the characters it completes and what it leaves open. -/
def first (b : UInt8) : List Char × Option Started :=
  match opening b with
  | .whole c => ([c], none)
  | .started s => ([], some s)
  | .invalid => ([replacement], none)

/-- One byte: the characters it completes and what it leaves open. -/
def next (open? : Option Started) (b : UInt8) : List Char × Option Started :=
  match open? with
  | none => first b
  | some s =>
    if s.low ≤ b ∧ b ≤ s.high then
      let bits := s.bits * 64 + (b.toNat - 0x80)
      if s.owed ≤ 1 then ([Char.ofNat bits], none)
      else ([], some ⟨bits, s.owed - 1, 0x80, 0xBF⟩)
    else
      let (chars, open?) := first b
      (replacement :: chars, open?)

/-- The characters of the rest of the bytes, with one possibly open before it. -/
def decodeFrom : Option Started → List UInt8 → List Char
  | none, [] => []
  | some _, [] => [replacement]
  | open?, b :: rest =>
    let (chars, open?) := next open? b
    chars ++ decodeFrom open? rest

/-- The text of any bytes whatever. -/
def decode (bytes : Bytes) : String := String.ofList (decodeFrom none bytes.toList)

end Cassette.Text.Utf8
