import Cassette.Deck
import Cassette.Text.Tenths

/-! Playing a whole tape without a machine. The tape is played interval by interval, and
every tick is charged to the block under the cursor before the step, in counts of 64 bits
that wrap around. A tape that halts on the way is started again; it is over when it has
run off its end or halts at block 0. -/

namespace Cassette

/-- What has been played. -/
structure Account where
  /-- The ticks of each block. -/
  ticks : Array UInt64
  total : UInt64
  /-- How often a halted tape was started again. -/
  stops : Nat
  deriving DecidableEq, Repr

/-- Why a tape was not played to its end. -/
inductive PlayFault
  | fault (fault : Fault)
  /-- The time limit was passed in this block. -/
  | tooLong (block : Nat)
  deriving DecidableEq, Repr

namespace Account

/-- Nothing played of so many blocks. -/
def blank (count : Nat) : Account := ⟨Array.replicate count 0, 0, 0⟩

/-- Charges ticks to a block. -/
def charge (a : Account) (block : Nat) (played : UInt64) : Account :=
  { a with ticks := a.ticks.modify block (· + played), total := a.total + played }

/-- Plays on from what has been played, up to `limit` ticks in all. None if the steps
and the edges of a step were not enough. -/
def playOn (s : Store) (limit : UInt64) : (fuel : Nat) → Deck → Account →
    Option (Deck × Except PlayFault Account)
  | 0, _, _ => none
  | fuel + 1, d, a =>
    let ended := !d.isPlaying && (d.hasRunOut || d.cursor == 0)
    if ended then some (d, .ok a)
    else
      let a := if d.isPlaying then a else { a with stops := a.stops + 1 }
      let d := if d.isPlaying then d else d.play.1
      let block := d.cursor
      match d.advance s (fuel + 1) d.remaining with
      | none => none
      | some (d, .error fault) => some (d, .error (.fault fault))
      | some (d, .ok played) =>
        let a := a.charge block (.ofNat played)
        if limit < a.total then some (d, .error (.tooLong block))
        else playOn s limit fuel d a

/-- Block by block, and the sums. -/
def lines (a : Account) (listing : List Summary) (ticksPerSecond : Nat) : List String :=
  let charged := (listing.zip a.ticks.toList).map fun (summary, ticks) =>
    Text.padRight 48 summary.line ++ " " ++ Text.padLeft 12 (toString ticks)
  let seconds := Text.tenths a.total.toNat ticksPerSecond
  charged ++ [s!"Total {a.total} T-states ({seconds} s), {a.stops} stops"]

end Account

end Cassette
