import Cassette.Image
import Cassette.Text.Utf8
import Cassette.Tzx.Kind

/-! The blocks of a TZX image. After the ten-byte file header each block is an id byte
and a body whose layout the id fixes. A reader takes the fields and measures the
payload without looking into it. -/

namespace Cassette.Tzx

/-- A run of payload bytes inside an image. -/
structure Span where
  offset : Nat
  length : Nat
  deriving DecidableEq, Repr

def Span.stop (s : Span) : Nat := s.offset + s.length

structure Block where
  /-- Where the id byte is. -/
  offset : Nat
  /-- The bytes after the id byte. -/
  bodySize : Nat
  kind : Kind Span String
  deriving DecidableEq

namespace Block

def id (b : Block) : UInt8 := b.kind.tag.toByte

/-- The bytes taken up, with the id. -/
def size (b : Block) : Nat := 1 + b.bodySize

/-- Where the next block starts. -/
def stop (b : Block) : Nat := b.offset + b.size

end Block

/-! ### The file header -/

/-- The letters and the end-of-text byte every TZX image starts with. -/
def magic : Bytes := #[0x5A, 0x58, 0x54, 0x61, 0x70, 0x65, 0x21, 0x1A]

/-- The magic and two version bytes. -/
def headerSize : Nat := 10

/-- Checks the file header; gives the version. -/
def version (image : Image) : Except ReadFault (UInt8 × UInt8) :=
  if image.length < headerSize then .error (.truncated "TZX header" 0 headerSize image.length)
  else if image.slice 0 magic.size = magic then .ok (image.byte 8, image.byte 9)
  else .error .wrongSignature

/-! ### Bodies -/

/-- A payload that the measured length must cover. -/
def payloadAt (image : Image) (offset length : Nat) (what : String) : Except ReadFault Span := do
  image.claim offset length what
  return ⟨offset, length⟩

/-- A text behind its one-byte length, at most 255 bytes; gives the text and the
bytes both take up. -/
def measuredText (image : Image) (offset : Nat) (what : String) :
    Except ReadFault (String × Nat) := do
  image.fetch offset 1 what
  let length := (image.byte offset).toNat
  image.fetch (offset + 1) length what
  return (Text.Utf8.decode (image.slice (offset + 1) length), 1 + length)

/-- The kind and the body size of the block of a tag whose body is at an offset. -/
def readBody (image : Image) (body : Nat) (tag : Tag) :
    Except ReadFault (Kind Span String × Nat) := do
  let byte i := image.byte (body + i)
  let word i := image.word (body + i)
  match tag with
  | .standardSpeed =>
    image.fetch body 4 "TZX Standard Speed header"
    let data ← payloadAt image (body + 4) (word 2).toNat "TZX Standard Speed data"
    return (.standardSpeed (word 0) data, 4 + data.length)
  | .turboSpeed =>
    image.fetch body 18 "TZX Turbo Speed header"
    let data ← payloadAt image (body + 18) (image.number (body + 15) 3) "TZX Turbo Speed data"
    return (.turboSpeed (word 0) (word 2) (word 4) (word 6) (word 8) (word 10) (byte 12) (word 13)
      data, 18 + data.length)
  | .pureTone =>
    image.fetch body 4 "TZX Pure Tone"
    return (.pureTone (word 0) (word 2), 4)
  | .pulseSequence =>
    image.fetch body 1 "TZX Pulse Sequence count"
    let count := (byte 0).toNat
    image.fetch (body + 1) (2 * count) "TZX Pulse Sequence data"
    return (.pulseSequence (image.words (body + 1) count), 1 + 2 * count)
  | .pureData =>
    image.fetch body 10 "TZX Pure Data header"
    let data ← payloadAt image (body + 10) (image.number (body + 7) 3) "TZX Pure Data data"
    return (.pureData (word 0) (word 2) (byte 4) (word 5) data, 10 + data.length)
  | .directRecording =>
    image.fetch body 8 "TZX Direct Recording header"
    let data ← payloadAt image (body + 8) (image.number (body + 5) 3) "TZX Direct Recording data"
    return (.directRecording (word 0) (word 2) (byte 4) data, 8 + data.length)
  | .csw =>
    image.claim body 14 "TZX CSW Recording header"
    image.reach body 4
    let length := image.number body 4
    if length < 10 then
      .error (.truncated "TZX CSW Recording header" (body + 4) 10 length)
    else
      image.reach (body + 4) 10
      let data ← payloadAt image (body + 14) (length - 10) "TZX CSW Recording data"
      return (.csw (word 4) (image.number (body + 6) 3) (.ofByte (byte 9))
        (UInt32.ofNat (image.number (body + 10) 4)) data, 14 + data.length)
  | .pause =>
    image.fetch body 2 "TZX Pause"
    return (.pause (word 0), 2)
  | .groupStart =>
    let (name, size) ← measuredText image body "TZX Group Start name"
    return (.groupStart name, size)
  | .groupEnd => return (.groupEnd, 0)
  | .jump =>
    image.fetch body 2 "TZX Jump"
    return (.jump (word 0).toInt16, 2)
  | .loopStart =>
    image.fetch body 2 "TZX Loop Start"
    return (.loopStart (word 0), 2)
  | .loopEnd => return (.loopEnd, 0)
  | .callSequence =>
    image.fetch body 2 "TZX Call Sequence count"
    let count := (word 0).toNat
    image.fetch (body + 2) (2 * count) "TZX Call Sequence offsets"
    return (.callSequence ((image.words (body + 2) count).map UInt16.toInt16), 2 + 2 * count)
  | .callReturn => return (.callReturn, 0)
  | .select =>
    image.fetch body 2 "TZX Select Block length"
    let length := (word 0).toNat
    image.claim (body + 2) length "TZX Select Block body"
    return (.select, 2 + length)
  | .stopIf48K =>
    image.claim body 4 "TZX Stop If 48K"
    return (.stopIf48K, 4)
  | .signalLevel =>
    image.claim body 5 "TZX Set Signal Level"
    image.reach (body + 4) 1
    return (.signalLevel (byte 4 != 0), 5)
  | .description =>
    let (text, size) ← measuredText image body "TZX Text Description"
    return (.description text, size)
  | .message =>
    image.claim body 1 "TZX Message time"
    let (text, size) ← measuredText image (body + 1) "TZX Message text"
    return (.message text, 1 + size)
  | .archive =>
    image.fetch body 2 "TZX Archive Info length"
    let length := (word 0).toNat
    image.claim (body + 2) length "TZX Archive Info body"
    return (.archive, 2 + length)
  | .hardware =>
    image.fetch body 1 "TZX Hardware Type count"
    let length := 3 * (byte 0).toNat
    image.claim (body + 1) length "TZX Hardware Type entries"
    return (.hardware, 1 + length)
  | .custom =>
    image.claim body 20 "TZX Custom Info header"
    image.reach (body + 16) 4
    let length := image.number (body + 16) 4
    image.claim (body + 20) length "TZX Custom Info body"
    return (.custom, 20 + length)
  | .glue =>
    image.claim body 9 "TZX Glue"
    return (.glue, 9)

/-- The block at an offset; none at the end of the image and beyond. -/
def blockAt? (image : Image) (offset : Nat) : Except ReadFault (Option Block) :=
  if image.length ≤ offset then .ok none
  else do
    image.reach offset 1
    match Tag.ofByte? (image.byte offset) with
    | none => .error (.unknownBlock (image.byte offset) offset)
    | some tag =>
      let (kind, bodySize) ← readBody image (offset + 1) tag
      return some { offset, bodySize, kind }

end Cassette.Tzx
