import Cassette.Fault
import Cassette.Tap.Header

/-! Writing TAP blocks. A frame is a payload behind its length word; a payload that
a 16-bit word cannot measure has no frame. -/

namespace Cassette.Tap

/-- The longest payload a length word can announce. -/
def payloadLimit : Nat := 65535

/-- A payload behind its length word. -/
def frame (payload : Bytes) : Except FileFault Bytes :=
  if payload.size ≤ payloadLimit then
    .ok ((LittleEndian.digits 2 payload.size).toArray ++ payload)
  else .error .blockTooLong

/-- A flag and the data after it, closed by the checksum. -/
def assemble (flag : UInt8) (data : Bytes) : Bytes :=
  #[flag] ++ data ++ #[checksum flag data.toList]

/-- The frame of a flag and data. -/
def frameData (flag : UInt8) (data : Bytes) : Except FileFault Bytes :=
  frame (assemble flag data)

/-- Frames payloads one after the other up to the first that has no frame; gives
what was written and how that went. -/
def frames : List Bytes → Bytes × Except FileFault Unit
  | [] => (#[], .ok ())
  | payload :: rest =>
    match frame payload with
    | .error fault => (#[], .error fault)
    | .ok written =>
      let (more, result) := frames rest
      (written ++ more, result)

end Cassette.Tap
