import Cassette.Settings
import Cassette.Signal.Payload
import Cassette.Tape

/-! The signal of a block, interval by interval. A phase is what is still to come of a
block; `next` takes the next interval off it. Pulses invert the level, samples and
pauses set it. Most blocks end in a pause, and a pause of no length is not there. -/

namespace Cassette.Signal

/-- What the start of an interval does to the level. -/
inductive Swing
  | flip
  | set (level : Bool)
  deriving DecidableEq, Repr

def Swing.apply : Swing → Bool → Bool
  | flip, level => !level
  | set level, _ => level

/-- A time in which the level does not change. -/
structure Interval where
  swing : Swing
  ticks : Nat
  deriving DecidableEq, Repr

/-- A pulse inverts the level. -/
def pulse (ticks : Nat) : Interval := ⟨.flip, ticks⟩

inductive Phase
  /-- Nothing: a block has to be entered. -/
  | idle
  | pilot (width : UInt16) (left : Nat) (sync1 sync2 : UInt16) (data : DataCursor)
  /-- The second sync pulse is next. -/
  | sync2 (width : UInt16) (data : DataCursor)
  | data (cursor : DataCursor)
  | tone (width : UInt16) (left : Nat)
  | pulses (widths : List UInt16)
  /-- One bit a sample, and the level is the bit. -/
  | samples (bits : BitCursor) (ticksPerSample pauseMs : UInt16)
  | runs (cursor : RunCursor)
  | pause (ticks : Nat)
  /-- Nothing more of this block. -/
  | done
  deriving DecidableEq, Repr

namespace Phase

/-- A pause sets the level low. -/
def takePause (ticks : Nat) : Option (Interval × Phase) :=
  if ticks = 0 then none else some (⟨.set false, ticks⟩, done)

/-- The next interval and what comes behind it; none if the block is over. -/
def next (s : Settings) (image : Image) : Phase → Except Fault (Option (Interval × Phase))
  | idle | done => .ok none
  | pilot width left s1 s2 cursor =>
    match left with
    | 0 => .ok (some (pulse s1.toNat, sync2 s2 cursor))
    | left + 1 => .ok (some (pulse width.toNat, pilot width left s1 s2 cursor))
  | sync2 width cursor => .ok (some (pulse width.toNat, data cursor))
  | data cursor => do
    match ← cursor.next image with
    | some (width, cursor) => return some (pulse width, data cursor)
    | none => return takePause (s.ticksOfMs cursor.pauseMs)
  | tone width left =>
    match left with
    | 0 => .ok none
    | left + 1 => .ok (some (pulse width.toNat, tone width left))
  | pulses widths =>
    match widths with
    | [] => .ok none
    | width :: rest => .ok (some (pulse width.toNat, pulses rest))
  | samples bits ticksPerSample pauseMs => do
    match ← bits.next image with
    | some (level, bits) =>
      return some (⟨.set level, ticksPerSample.toNat⟩, samples bits ticksPerSample pauseMs)
    | none => return takePause (s.ticksOfMs pauseMs)
  | runs cursor => do
    match ← cursor.next image s.ticksPerSecond with
    | some (ticks, cursor) => return some (pulse ticks, runs cursor)
    | none => return takePause (s.ticksOfMs cursor.pauseMs)
  | pause ticks => .ok (takePause ticks)

/-- Where the next payload byte is, while a payload is being played. -/
def position? : Phase → Option Nat
  | pilot _ _ _ _ cursor | sync2 _ cursor | data cursor => some cursor.bits.position
  | samples bits _ _ => some bits.position
  | runs cursor => some cursor.position
  | idle | tone .. | pulses _ | pause _ | done => none

/-- A payload with the pulses of the ROM: a pilot as long as its flag asks for, two
sync pulses, and the bits. -/
def rom (s : Settings) (flag : UInt8) (pauseMs : UInt16) (payload : Tzx.Span) : Phase :=
  let t := s.timings
  pilot t.pilotPulse (t.pilotLength flag).toNat t.sync1 t.sync2
    (.new t.zeroPulse t.onePulse 8 pauseMs payload)

end Phase

/-- What entering a block comes to. -/
inductive Entry
  | signal (phase : Phase)
  /-- The tape stops behind the block. -/
  | halt
  | setLevel (level : Bool)
  /-- The block takes no time and may lead elsewhere. -/
  | route
  deriving DecidableEq, Repr

/-- Looks at a TZX block that is entered. The flag of a standard block decides on its
pilot, so it is read here. -/
def Entry.ofKind (s : Settings) (image : Image) : Tzx.Kind Tzx.Span String → Except Fault Entry
  | .standardSpeed pauseMs payload =>
    if payload.length = 0 then .ok (.signal (.pause (s.ticksOfMs pauseMs)))
    else do
      let flag ← image.byteAt payload.offset
      return .signal (.rom s flag pauseMs payload)
  | .turboSpeed pilotPulse sync1 sync2 zeroPulse onePulse pilotLength usedBits pauseMs payload =>
    .ok (.signal (.pilot pilotPulse pilotLength.toNat sync1 sync2
      (.new zeroPulse onePulse usedBits pauseMs payload)))
  | .pureTone width count => .ok (.signal (.tone width count.toNat))
  | .pulseSequence widths => .ok (.signal (.pulses widths))
  | .pureData zeroPulse onePulse usedBits pauseMs payload =>
    .ok (.signal (.data (.new zeroPulse onePulse usedBits pauseMs payload)))
  | .directRecording ticksPerSample pauseMs usedBits payload =>
    .ok (.signal (.samples (.new payload usedBits) ticksPerSample pauseMs))
  | .csw pauseMs rate compression _ payload =>
    if compression ≠ .runLength then .error .packedSamples
    else if rate = 0 then .ok (.signal (.pause (s.ticksOfMs pauseMs)))
    else .ok (.signal (.runs (.new payload rate pauseMs)))
  | .pause ms => .ok (if ms = 0 then .halt else .signal (.pause (s.ticksOfMs ms)))
  | .signalLevel level => .ok (.setLevel level)
  | _ => .ok .route

/-- Looks at a block that is entered. A TAP block without payload is silent. -/
def Entry.ofBlock (s : Settings) (image : Image) : Block → Except Fault Entry
  | .tap b =>
    match b.flag with
    | none => .ok (.signal .done)
    | some flag =>
      .ok (.signal (.rom s flag s.blockPauseMs ⟨b.payloadStart, b.length.toNat⟩))
  | .tzx b => Entry.ofKind s image b.kind

end Cassette.Signal
