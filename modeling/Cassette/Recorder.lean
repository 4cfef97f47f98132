import Cassette.Bits
import Cassette.Settings

/-! The recorder: recovers the bytes of a saved block from the edges of a line. A block
is a pilot tone, two sync pulses, and two pulses a bit. A pulse counts as a given one
within a quarter of its width; two halves make a one if together they are longer
than a zero and a one pulse. A block ends with a pulse that is no half of a bit, or
with silence. -/

namespace Cassette

/-- What the recorder listens for. -/
inductive Listening
  | idle
  /-- So many pilot pulses have been heard. -/
  | pilot (count : UInt32)
  /-- The first sync pulse has been heard. -/
  | sync
  /-- Bits are coming; with the width of the first half of one. -/
  | data (half : Option Nat)
  deriving DecidableEq, Repr

structure Recorder where
  timings : Timings
  /-- Silence longer than this ends a block. -/
  silence : Nat
  listening : Listening
  level : Bool
  /-- The tick of the latest edge. -/
  edge? : Option Nat
  bytes : Bytes
  /-- The bits of a byte that is not complete. -/
  bits : List Bool
  deriving DecidableEq

namespace Recorder

/-- The pilot pulses that must come before a sync pulse is believed. -/
def enoughPilot : UInt32 := 256

/-- Two one pulses, or a two-hundredth of a second if that is longer. -/
def silenceFor (timings : Timings) (ticksPerSecond : Nat) : Nat :=
  max (2 * timings.onePulse.toNat) (ticksPerSecond / 200)

def new (timings : Timings) (ticksPerSecond : Nat) : Recorder where
  timings := timings
  silence := silenceFor timings ticksPerSecond
  listening := .idle
  level := false
  edge? := none
  bytes := #[]
  bits := []

/-- Within a quarter of the target, in words of 64 bits. -/
def near (width : Nat) (target : UInt16) : Bool :=
  let quadruple := 4 * UInt64.ofNat width
  3 * target.toUInt64 ≤ quadruple && quadruple ≤ 5 * target.toUInt64

/-- One of the two pulses of a bit. -/
def isHalf (r : Recorder) (width : Nat) : Bool :=
  near width r.timings.zeroPulse || near width r.timings.onePulse

/-- Bytes are being received. -/
def receiving (r : Recorder) : Bool :=
  match r.listening with
  | .data _ => !r.bytes.isEmpty
  | _ => false

/-- Ends the block: its bytes if there are any, and a recorder that is idle. -/
def endBlock (r : Recorder) : Option Bytes × Recorder :=
  (if r.bytes.isEmpty then none else some r.bytes,
    { r with listening := .idle, bytes := #[], bits := [] })

def addBit (r : Recorder) (b : Bool) : Recorder :=
  let bits := r.bits ++ [b]
  if bits.length = 8 then { r with bytes := r.bytes.push (Bits.byteOf bits), bits := [] }
  else { r with bits }

/-- A pulse of a given width, and the block it ends. -/
def pulse (r : Recorder) (width : Nat) : Option Bytes × Recorder :=
  match r.listening with
  | .idle =>
    (none, { r with listening := if near width r.timings.pilotPulse then .pilot 1 else .idle })
  | .pilot count =>
    (none, { r with
      listening :=
        if near width r.timings.pilotPulse then .pilot (count + 1)
        else if enoughPilot ≤ count ∧ near width r.timings.sync1 then .sync
        else .idle })
  | .sync =>
    (none, { r with listening := if near width r.timings.sync2 then .data none else .idle })
  | .data none =>
    if r.isHalf width then (none, { r with listening := .data (some width) }) else r.endBlock
  | .data (some first) =>
    if r.isHalf width then
      let one := r.timings.zeroPulse.toNat + r.timings.onePulse.toNat < first + width
      (none, { r.addBit one with listening := .data none })
    else r.endBlock

/-- The level of the line at a tick, and the block that ends there. A pulse longer
than the silence ends a block before it is looked at itself. -/
def edge (r : Recorder) (level : Bool) (tick : Nat) : Option Bytes × Recorder :=
  if level = r.level then (none, r)
  else
    let heard := { r with level, edge? := some tick }
    match r.edge? with
    | none => (none, heard)
    | some previous =>
      let width := tick - previous
      if r.silence < width then
        let (block, closed) := heard.endBlock
        (block, (closed.pulse width).2)
      else heard.pulse width

/-- Ends the block if the line has been quiet for too long. -/
def quiet (r : Recorder) (tick : Nat) : Option Bytes × Recorder :=
  match r.edge? with
  | some last => if r.silence < tick - last then r.endBlock else (none, r)
  | none => (none, r)

/-- Ends the block and forgets the latest edge. -/
def finish (r : Recorder) : Option Bytes × Recorder := { r with edge? := none }.endBlock

end Recorder

end Cassette
