/-! Settings of a deck: the machine it is connected to, the pulse widths of its ROM
loader, the pause after a block, and who owns the line. All times are counted in
T-states of the machine's clock. -/

namespace Cassette

inductive Model
  | spectrum48K
  | spectrum128K
  | spectrumPlus2
  | spectrumPlus3
  | pentagon128
  deriving DecidableEq, Repr

namespace Model

/-- Blocks that stop a 48K machine stop this one. -/
def only48K : Model → Bool
  | spectrum48K => true
  | _ => false

/-- T-states per second. -/
def ticksPerSecond : Model → UInt32
  | spectrum48K | pentagon128 => 3500000
  | spectrum128K | spectrumPlus2 | spectrumPlus3 => 3546900

end Model

/-- Pulse widths, in T-states, and pilot lengths, in pulses. -/
structure Timings where
  pilotPulse : UInt16
  sync1 : UInt16
  sync2 : UInt16
  zeroPulse : UInt16
  onePulse : UInt16
  headerPilot : UInt16
  dataPilot : UInt16
  deriving DecidableEq, Repr

namespace Timings

/-- What the ROM saves with. -/
def rom : Timings where
  pilotPulse := 2168
  sync1 := 667
  sync2 := 735
  zeroPulse := 855
  onePulse := 1710
  headerPilot := 8063
  dataPilot := 3223

/-- The pilot before a block: the longer one if the highest bit of its flag is clear. -/
def pilotLength (t : Timings) (flag : UInt8) : UInt16 :=
  if flag < 0x80 then t.headerPilot else t.dataPilot

end Timings

/-- Who owns the line when a real cassette is connected as well. -/
inductive LineMode
  /-- The cassette is heard when no tape is inserted; pulses are recorded while none plays. -/
  | auto
  /-- Always listen to the cassette. -/
  | forceLoad
  /-- Always record. -/
  | forceSave
  deriving DecidableEq, Repr

structure Settings where
  model : Model
  /-- Replaces the clock of the model. -/
  clock? : Option UInt32
  timings : Timings
  /-- The silence after a block of a TAP image. -/
  blockPauseMs : UInt16
  lineMode : LineMode
  deriving DecidableEq, Repr

namespace Settings

def standard : Settings where
  model := .spectrum48K
  clock? := none
  timings := .rom
  blockPauseMs := 1000
  lineMode := .auto

/-- T-states per second. -/
def ticksPerSecond (s : Settings) : Nat := (s.clock?.getD s.model.ticksPerSecond).toNat

/-- Milliseconds in T-states, rounded down. -/
def ticksOfMs (s : Settings) (ms : UInt16) : Nat := ms.toNat * s.ticksPerSecond / 1000

end Settings

end Cassette
