import Cassette.Bits
import Cassette.Tzx.Block

/-! Payloads as they are played. A cursor stands in a payload and gives one bit, one
pulse or one run of samples at a time; bytes are read when they are needed. Bits come
most significant first, and each bit of data is two pulses of equal width. -/

namespace Cassette.Signal

open Tzx (Span)

/-- Stands between two bits of a payload. -/
structure BitCursor where
  data : Span
  /-- How many bits of the last byte count. -/
  lastBits : Nat
  /-- The number of bytes read. -/
  bytesRead : Nat
  /-- The bits of the latest byte that are still to come. -/
  pending : List Bool
  deriving DecidableEq, Repr

namespace BitCursor

/-- In front of a payload. A count of zero or more than eight means all eight bits. -/
def new (data : Span) (usedBits : UInt8) : BitCursor where
  data := data
  lastBits := if usedBits = 0 ∨ 8 < usedBits then 8 else usedBits.toNat
  bytesRead := 0
  pending := []

/-- Where the next byte is. -/
def position (c : BitCursor) : Nat := c.data.offset + c.bytesRead

/-- The next bit; none behind the last. -/
def next (c : BitCursor) (image : Image) : Except Fault (Option (Bool × BitCursor)) :=
  match c.pending with
  | b :: rest => .ok (some (b, { c with pending := rest }))
  | [] =>
    if c.data.length ≤ c.bytesRead then .ok none
    else do
      let byte ← image.byteAt c.position
      let used := if c.bytesRead + 1 = c.data.length then c.lastBits else 8
      let pending := ((Bits.bitsOf byte).take used).drop 1
      return some (Bits.bit byte 0, { c with bytesRead := c.bytesRead + 1, pending })

end BitCursor

/-- Stands between two pulses of data. -/
structure DataCursor where
  bits : BitCursor
  zeroPulse : UInt16
  onePulse : UInt16
  /-- The second pulse of a bit whose first has been sent. -/
  half : Option UInt16
  /-- The pause behind the data. -/
  pauseMs : UInt16
  deriving DecidableEq, Repr

namespace DataCursor

def new (zeroPulse onePulse : UInt16) (usedBits : UInt8) (pauseMs : UInt16) (data : Span) :
    DataCursor :=
  ⟨.new data usedBits, zeroPulse, onePulse, none, pauseMs⟩

/-- The width of the next pulse; none behind the last. -/
def next (c : DataCursor) (image : Image) : Except Fault (Option (Nat × DataCursor)) :=
  match c.half with
  | some width => .ok (some (width.toNat, { c with half := none }))
  | none => do
    match ← c.bits.next image with
    | none => return none
    | some (b, bits) =>
      let width := if b then c.onePulse else c.zeroPulse
      return some (width.toNat, { c with bits, half := some width })

end DataCursor

/-- Stands between two runs of samples of a recording. -/
structure RunCursor where
  data : Span
  /-- The number of bytes read. -/
  read : Nat
  /-- Samples per second. -/
  rate : Nat
  /-- The samples passed. -/
  samples : Nat
  /-- The ticks passed. -/
  ticks : Nat
  pauseMs : UInt16
  deriving DecidableEq, Repr

/-- The last tick that 64 bits can count. -/
def lastTick : Nat := UInt64.size - 1

namespace RunCursor

def new (data : Span) (rate : Nat) (pauseMs : UInt16) : RunCursor := ⟨data, 0, rate, 0, 0, pauseMs⟩

def position (c : RunCursor) : Nat := c.data.offset + c.read

/-- The tick at which a number of samples is over, rounded down. -/
def tickOf (rate ticksPerSecond samples : Nat) : Nat :=
  min (samples * ticksPerSecond / rate) lastTick

/-- The length of the next run in samples, and the bytes that say so. A zero byte
stands in front of a length in four bytes. -/
def nextRun (c : RunCursor) (image : Image) : Except Fault (Nat × Nat) := do
  let short ← image.byteAt c.position
  if short ≠ 0 then return (short.toNat, 1)
  else if c.data.length < c.read + 5 then .error .cutShort
  else
    let long ← image.excerpt (c.position + 1) 4
    return (LittleEndian.value long.toList, 5)

/-- The length of the next run in ticks; none behind the last. A run ends at the tick
of all samples so far, so rounding does not add up. -/
def next (c : RunCursor) (image : Image) (ticksPerSecond : Nat) :
    Except Fault (Option (Nat × RunCursor)) :=
  if c.data.length ≤ c.read then .ok none
  else do
    let (count, size) ← c.nextRun image
    let samples := c.samples + count
    let ticks := tickOf c.rate ticksPerSecond samples
    return some (ticks - c.ticks, { c with read := c.read + size, samples, ticks })

end RunCursor

end Cassette.Signal
