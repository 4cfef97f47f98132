import Cassette.Tape

/-! The sparse table of block offsets. One pass over a tape notes where every
sixteenth block starts; any block is then found by skipping at most fifteen blocks
from the noted one before it. -/

namespace Cassette

structure Index where
  /-- Where blocks 0, 16, 32 and so on start. -/
  marks : Array Nat
  /-- The number of blocks. -/
  count : Nat
  deriving DecidableEq

/-- Where skipping blocks came to a halt, and the fault if it was not the end of the tape. -/
structure Stuck where
  offset : Nat
  fault : Option ReadFault
  deriving DecidableEq

/-- Skips blocks; gives the offset behind them. -/
def Tape.skip (t : Tape) : (count : Nat) → (offset : Nat) → Except Stuck Nat
  | 0, offset => .ok offset
  | count + 1, offset =>
    match t.blockAt? offset with
    | .error fault => .error ⟨offset, some fault⟩
    | .ok none => .error ⟨offset, none⟩
    | .ok (some b) => t.skip count (offset + b.size)

namespace Index

/-- The number of blocks between two marks. -/
def stride : Nat := 16

theorem stride_mul_lt {size i : Nat} (h : i < (size + 15) / 16) : stride * i < size := by
  unfold stride
  omega

/-- The index of a row of blocks. -/
def ofBlocks (blocks : Array Block) : Index where
  marks := Array.ofFn fun i : Fin ((blocks.size + 15) / 16) =>
    have := stride_mul_lt i.isLt
    blocks[stride * i.val].offset
  count := blocks.size

/-- Scans a whole tape; a block that cannot be read hides all that follow it. -/
def ofTape (t : Tape) : Except Fault Index :=
  let s := t.scan
  match s.fault with
  | some fault => .error (.ofRead fault)
  | none => .ok (ofBlocks s.blocks)

def isEmpty (x : Index) : Bool := x.count == 0

/-- Where a block starts. -/
def locate (x : Index) (t : Tape) (ordinal : Nat) : Except Fault Nat :=
  if x.count ≤ ordinal then .error (.noSuchBlock ordinal x.count)
  else
    match x.marks[ordinal / stride]? with
    | none => .error (.indexMismatch ordinal)
    | some entry =>
      match t.skip (ordinal % stride) entry with
      | .ok offset => .ok offset
      | .error ⟨_, some fault⟩ => .error (.ofRead fault)
      | .error ⟨_, none⟩ => .error (.indexMismatch ordinal)

/-- The block of a number. -/
def find (x : Index) (t : Tape) (ordinal : Nat) : Except Fault Block := do
  let offset ← x.locate t ordinal
  match t.blockAt? offset with
  | .error fault => .error (.ofRead fault)
  | .ok none => .error (.indexMismatch ordinal)
  | .ok (some b) => return b

/-- Where the head stands after `locate`: behind the last block skipped, at the one
that could not be read, or where it was if none had to be read. -/
def headAfterLocate (x : Index) (t : Tape) (ordinal head : Nat) : Nat :=
  if x.count ≤ ordinal ∨ ordinal % stride = 0 then head
  else
    match x.marks[ordinal / stride]? with
    | none => head
    | some entry =>
      match t.skip (ordinal % stride) entry with
      | .ok offset => offset
      | .error stuck => stuck.offset

/-- Where the head stands after `find`. -/
def headAfterFind (x : Index) (t : Tape) (ordinal head : Nat) : Nat :=
  match x.locate t ordinal with
  | .error _ => x.headAfterLocate t ordinal head
  | .ok offset => Tape.headAfter offset (t.blockAt? offset)

end Index

end Cassette
