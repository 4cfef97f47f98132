import Cassette.Format
import Cassette.Tap.Block
import Cassette.Tzx.Block

/-! An open tape: an image read in one of the two formats. Blocks follow each other
without gaps from `start` on, and reading one never depends on where the last
reading stopped. `scan` reads them all, up to the end or the first that cannot be
read. -/

namespace Cassette

/-- A block of either format. -/
inductive Block
  | tap (block : Tap.Block)
  | tzx (block : Tzx.Block)
  deriving DecidableEq

namespace Block

def offset : Block → Nat
  | tap b => b.offset
  | tzx b => b.offset

/-- The bytes taken up. -/
def size : Block → Nat
  | tap b => b.size
  | tzx b => b.size

/-- Where the next block starts. -/
def stop (b : Block) : Nat := b.offset + b.size

theorem size_pos (b : Block) : 0 < b.size := by
  cases b <;> simp only [size, Tap.Block.size, Tzx.Block.size] <;> omega

end Block

structure Tape where
  format : Format
  image : Image
  /-- The version found when the tape was opened, in TZX images. -/
  version : Option (UInt8 × UInt8)
  deriving DecidableEq

/-- The blocks read, in order, where reading stopped, and the fault that stopped it
if it was not the end. -/
structure Scan where
  blocks : Array Block
  head : Nat
  fault : Option ReadFault
  deriving DecidableEq

namespace Tape

/-- Opens an image; a TZX image must show its signature. -/
def ofImage (format : Format) (image : Image) : Except ReadFault Tape :=
  match format with
  | .tap => .ok ⟨.tap, image, none⟩
  | .tzx => do return ⟨.tzx, image, some (← Tzx.version image)⟩

def length (t : Tape) : Nat := t.image.length

/-- Where block 0 starts. -/
def start (t : Tape) : Nat :=
  match t.format with
  | .tap => 0
  | .tzx => Tzx.headerSize

/-- There is no room for a block. -/
def isEmpty (t : Tape) : Bool := t.length ≤ t.start

/-- The block at an offset; none at the end of the tape and beyond. -/
def blockAt? (t : Tape) (offset : Nat) : Except ReadFault (Option Block) :=
  match t.format with
  | .tap => do return (← Tap.blockAt? t.image offset).map .tap
  | .tzx => do return (← Tzx.blockAt? t.image offset).map .tzx

/-- Where the head stands after reading a block at `head`: behind it if there was
one, else where it was. -/
def headAfter (head : Nat) : Except ReadFault (Option Block) → Nat
  | .ok (some b) => head + b.size
  | _ => head

/-- Reads on from `head`, with `blocks` read so far. -/
def scanFrom (t : Tape) (head : Nat) (blocks : Array Block) : Scan :=
  if _h : head < t.length then
    match t.blockAt? head with
    | .error fault => ⟨blocks, head, some fault⟩
    | .ok none => ⟨blocks, head, none⟩
    | .ok (some b) => t.scanFrom (head + b.size) (blocks.push b)
  else ⟨blocks, head, none⟩
  termination_by t.length - head
  decreasing_by have := b.size_pos; omega

/-- Every block from an offset on. -/
def scanAt (t : Tape) (offset : Nat) : Scan := t.scanFrom offset #[]

/-- Every block of the tape. -/
def scan (t : Tape) : Scan := t.scanAt t.start

end Tape

end Cassette
