import Cassette.Bytes

/-! The standard header: seventeen bytes that name the block after it. Main
statements: a header read from seventeen bytes is written as just these
(`toBytes_ofBytes`), and a payload's checksum makes the exclusive or of all its
bytes zero (`xor_payload`). -/

namespace Cassette.Tap

/-- The exclusive or of a flag byte and the data after it. -/
def checksum (flag : UInt8) (data : List UInt8) : UInt8 := data.foldl (· ^^^ ·) flag

/-- What the block after a header holds. -/
inductive Content
  | program
  | numberArray
  | characterArray
  | bytes
  | other (code : UInt8)
  deriving DecidableEq, Repr

namespace Content

def ofByte (code : UInt8) : Content :=
  if code = 0 then .program
  else if code = 1 then .numberArray
  else if code = 2 then .characterArray
  else if code = 3 then .bytes
  else .other code

def toByte : Content → UInt8
  | .program => 0
  | .numberArray => 1
  | .characterArray => 2
  | .bytes => 3
  | .other code => code

@[simp] theorem toByte_ofByte (code : UInt8) : (ofByte code).toByte = code := by
  grind [ofByte, toByte]

end Content

/-- The width of the name field. -/
abbrev nameWidth : Nat := 10

structure Header where
  content : Content
  /-- The name as stored, padded with spaces. -/
  name : Vector UInt8 nameWidth
  dataLength : UInt16
  param1 : UInt16
  param2 : UInt16
  deriving DecidableEq

/-- The word in two given bytes. -/
def wordOf (low high : UInt8) : UInt16 := UInt16.ofNat (LittleEndian.value [low, high])

def lowByte (w : UInt16) : UInt8 := UInt8.ofNat w.toNat

def highByte (w : UInt16) : UInt8 := UInt8.ofNat (w.toNat / 256)

@[simp] theorem lowByte_wordOf (low high : UInt8) : lowByte (wordOf low high) = low := by
  apply UInt8.toNat_inj.1
  simp [lowByte, wordOf, LittleEndian.value]

@[simp] theorem highByte_wordOf (low high : UInt8) : highByte (wordOf low high) = high := by
  apply UInt8.toNat_inj.1
  have := low.toNat_lt
  have := high.toNat_lt
  simp [highByte, wordOf, LittleEndian.value]
  omega

namespace Header

/-- The header in the seventeen bytes after a flag. -/
def ofBytes (v : Vector UInt8 17) : Header where
  content := .ofByte v[0]
  name := Vector.ofFn fun i =>
    have : i.val < 10 := i.isLt
    v[i.val + 1]
  dataLength := wordOf v[11] v[12]
  param1 := wordOf v[13] v[14]
  param2 := wordOf v[15] v[16]

/-- The bytes of a header in order. -/
def byteList (h : Header) : List UInt8 :=
  h.content.toByte :: (h.name.toList ++ [lowByte h.dataLength, highByte h.dataLength,
    lowByte h.param1, highByte h.param1, lowByte h.param2, highByte h.param2])

def toBytes (h : Header) : Vector UInt8 17 := ⟨h.byteList.toArray, by simp [byteList]⟩

/-- Any seventeen bytes are a header, which is written as those bytes. -/
theorem toBytes_ofBytes (v : Vector UInt8 17) : (ofBytes v).toBytes = v := by
  obtain ⟨⟨bytes⟩, seventeen⟩ := v
  match bytes, seventeen with
  | [_, _, _, _, _, _, _, _, _, _, _, _, _, _, _, _, _], _ =>
    simp [toBytes, byteList, ofBytes]
    rfl

/-- Flag, header and checksum: what a header block holds after its length word. -/
def payload (h : Header) (flag : UInt8) : Bytes :=
  #[flag] ++ h.toBytes.toArray ++ #[checksum flag h.toBytes.toList]

/-- With its checksum a payload adds up to nothing. -/
theorem xor_payload (h : Header) (flag : UInt8) :
    (h.payload flag).toList.foldl (· ^^^ ·) 0 = 0 := by
  simp [payload, checksum, toBytes]

/-- The name as shown: other than printing characters become question marks, and
the padding goes. -/
def displayName (h : Header) : String :=
  let shown := h.name.toList.map fun b =>
    if 0x20 ≤ b ∧ b ≤ 0x7E then Char.ofNat b.toNat else '?'
  String.ofList (shown.reverse.dropWhile (· == ' ')).reverse

/-- A name has room if it is no longer than the field. -/
def nameFits (name : String) : Bool := name.length ≤ nameWidth

/-- The character stored for each character of a name. -/
def nameByte (c : Char) : UInt8 :=
  if ' ' ≤ c ∧ c ≤ '~' then UInt8.ofNat c.toNat else UInt8.ofNat '?'.toNat

/-- The first ten characters of a name, padded with spaces. -/
def nameField (name : String) : Vector UInt8 nameWidth :=
  let chars := name.toList
  Vector.ofFn fun i => ((chars[i.val]?).map nameByte).getD 0x20

def withName (h : Header) (name : String) : Header := { h with name := nameField name }

end Header

end Cassette.Tap
