import Cassette.Bytes
import Cassette.Fault

/-! A tape image as its readers see it: the bytes, and the length measured when the
image was opened. The two agree until somebody else changes the file. A reader
first asks whether the measured length covers what it wants (`claim`), and then
whether the bytes are really there (`reach`); only then are fields taken, so the
field functions themselves are total. -/

namespace Cassette

structure Image where
  bytes : Bytes
  /-- The length measured when the image was opened. -/
  length : Nat
  deriving DecidableEq

namespace Image

/-- An image whose length has just been measured. -/
def ofBytes (bytes : Bytes) : Image := ⟨bytes, bytes.size⟩

/-- The measured length covers `count` bytes from `offset`. -/
def claim (image : Image) (offset count : Nat) (what : String) : Except ReadFault Unit :=
  if offset + count ≤ image.length then .ok ()
  else .error (.truncated what offset count (image.length - offset))

/-- The `count` bytes from `offset` are really there. -/
def reach (image : Image) (offset count : Nat) : Except ReadFault Unit :=
  if count = 0 ∨ offset + count ≤ image.bytes.size then .ok () else .error .unexpectedEnd

/-- `claim`, then `reach`. -/
def fetch (image : Image) (offset count : Nat) (what : String) : Except ReadFault Unit := do
  image.claim offset count what
  image.reach offset count

/-- The byte at an offset, zero past the end. -/
def byte (image : Image) (offset : Nat) : UInt8 := image.bytes.getD offset 0

/-- The number in the `width` bytes from an offset. -/
def number (image : Image) (offset : Nat) : (width : Nat) → Nat
  | 0 => 0
  | width + 1 => (image.byte offset).toNat + 256 * image.number (offset + 1) width

/-- The two bytes at an offset as one word. -/
def word (image : Image) (offset : Nat) : UInt16 := UInt16.ofNat (image.number offset 2)

/-- The `count` consecutive words from an offset. -/
def words (image : Image) (offset : Nat) : (count : Nat) → List UInt16
  | 0 => []
  | count + 1 => image.word offset :: image.words (offset + 2) count

/-- The bytes from `offset` up to `offset + count`, as far as they exist. -/
def slice (image : Image) (offset count : Nat) : Bytes :=
  image.bytes.extract offset (offset + count)

/-- Reads a run of bytes that the measured length must cover. -/
def excerpt (image : Image) (offset count : Nat) : Except Fault Bytes :=
  if image.length < offset + count then .error .cutShort
  else if count = 0 ∨ offset + count ≤ image.bytes.size then .ok (image.slice offset count)
  else .error (.file .unexpectedEnd)

/-- Reads one byte that the measured length must cover. -/
def byteAt (image : Image) (offset : Nat) : Except Fault UInt8 :=
  if image.length < offset + 1 then .error .cutShort
  else if offset + 1 ≤ image.bytes.size then .ok (image.byte offset)
  else .error (.file .unexpectedEnd)

/-- Writes over the bytes from `offset`, first filling a gap before them with zeros. -/
def patch (bytes : Bytes) (offset : Nat) (new : Bytes) : Bytes :=
  bytes.extract 0 offset ++ Array.replicate (offset - bytes.size) 0 ++ new
    ++ bytes.extract (offset + new.size) bytes.size

/-- Overwrites bytes in place; the measured length must cover them. -/
def overwrite (image : Image) (offset : Nat) (new : Bytes) : Except Fault Image :=
  if image.length < offset + new.size then .error .cutShort
  else .ok (if new.size = 0 then image else { image with bytes := patch image.bytes offset new })

end Image

end Cassette
