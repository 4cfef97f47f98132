import Cassette.Image
import Cassette.Tap.Header

/-! The blocks of a TAP image. A block is a length word and as many payload bytes as
it says: a flag, data and a checksum. A payload of nineteen bytes with flag zero is
a header. Reading looks at the length word, the flag and the header fields only. -/

namespace Cassette.Tap

/-- The payload length of a header: flag, seventeen bytes, checksum. -/
def headerLength : UInt16 := 19

structure Block where
  /-- Where the length word is. -/
  offset : Nat
  /-- The payload length. -/
  length : UInt16
  /-- The first payload byte, if there is one. -/
  flag : Option UInt8
  header : Option Header
  deriving DecidableEq

namespace Block

/-- The bytes taken up, with the length word. -/
def size (b : Block) : Nat := 2 + b.length.toNat

def payloadStart (b : Block) : Nat := b.offset + 2

/-- Where the next block starts. -/
def stop (b : Block) : Nat := b.offset + b.size

end Block

/-- The header whose seventeen bytes start at an offset. -/
def headerAt (image : Image) (offset : Nat) : Header :=
  .ofBytes (Vector.ofFn fun i => image.byte (offset + i.val))

/-- The block at an offset; none at the end of the image and beyond. -/
def blockAt? (image : Image) (offset : Nat) : Except ReadFault (Option Block) :=
  if image.length ≤ offset then .ok none
  else do
    image.fetch offset 2 "TAP length word"
    let length := image.word offset
    image.claim (offset + 2) length.toNat "TAP block payload"
    if length = 0 then
      return some { offset, length, flag := none, header := none }
    image.reach (offset + 2) 1
    let flag := image.byte (offset + 2)
    if length = headerLength ∧ flag = 0 then
      image.reach (offset + 3) 17
      let header := headerAt image (offset + 3)
      return some { offset, length, flag := some flag, header := some header }
    return some { offset, length, flag := some flag, header := none }

end Cassette.Tap
