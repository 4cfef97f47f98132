import Cassette.Tzx.Kind

/-! Where playback goes after a block that takes no time. One loop and one call are
remembered: a loop start inside a loop replaces it, and so does a call inside a
call. -/

namespace Cassette

/-- Where playback continues. -/
inductive Turn
  /-- The block that follows. -/
  | next
  | goTo (ordinal : Nat)
  /-- Halt behind the block. -/
  | stop
  /-- The end of the tape: rewind and halt. -/
  | finish
  deriving DecidableEq, Repr

/-- An open loop: its first block and how often it is still to be played. -/
structure OpenLoop where
  start : Nat
  left : Nat
  deriving DecidableEq, Repr

/-- An open call: the calling block, the number of the next target and how many
targets there are. -/
structure OpenCall where
  caller : Nat
  next : Nat
  targets : Nat
  deriving DecidableEq, Repr

/-- The loop and the call that are open. -/
structure Route where
  loop? : Option OpenLoop
  call? : Option OpenCall
  deriving DecidableEq, Repr

namespace Turn

/-- On to a block of a tape of `count` blocks; past the last the tape is over. -/
def onTo (target count : Nat) : Turn := if count ≤ target then finish else goTo target

/-- On to a block so many blocks away, at least block 0. Here a block number is a signed
word of 64 bits, so that of the upper half of the numbers only the last lie within reach
of a block. -/
def hop (ordinal : Nat) (displacement : Int16) (count : Nat) : Turn :=
  onTo (Int64.ofNat ordinal + displacement.toInt64).toNatClampNeg count

/-- On any tape there can be, block numbers stay in the lower half and a hop adds plainly. -/
theorem hop_of_lt {ordinal : Nat} (h : ordinal < 9223372036854743040) (displacement : Int16)
    (count : Nat) :
    hop ordinal displacement count = onTo (ordinal + displacement.toInt).toNat count := by
  have lower := displacement.le_toInt
  have upper := displacement.toInt_lt
  have word : (Int64.ofNat ordinal).toInt = ordinal :=
    Int64.toInt_ofNat_of_lt (by omega)
  have sum : (Int64.ofNat ordinal + displacement.toInt64).toInt
      = ordinal + displacement.toInt := by
    rw [Int64.toInt_add, word, Int16.toInt_toInt64]
    apply Int.bmod_eq_of_le <;> omega
  rw [hop, Int64.toNatClampNeg, sum]

end Turn

namespace Route

/-- Nothing is open. -/
def fresh : Route := ⟨none, none⟩

/-- The end of a loop: back behind its start while there are repetitions left. -/
def closeLoop (r : Route) : Turn × Route :=
  match r.loop? with
  | none => (.next, r)
  | some frame =>
    if frame.left - 1 = 0 then (.next, { r with loop? := none })
    else (.goTo (frame.start + 1), { r with loop? := some { frame with left := frame.left - 1 } })

/-- A call sequence: to its next target, or on when all have been played. -/
def call (r : Route) (ordinal count : Nat) (displacements : List Int16) : Turn × Route :=
  let next :=
    match r.call? with
    | some frame => if frame.caller = ordinal then frame.next else 0
    | none => 0
  match displacements[next]? with
  | none => (.next, { r with call? := none })
  | some displacement =>
    (.hop ordinal displacement count,
      { r with call? := some ⟨ordinal, next + 1, displacements.length⟩ })

/-- The end of a called run: back to the caller while it has targets left, else behind it. -/
def comeBack (r : Route) (count : Nat) : Turn × Route :=
  match r.call? with
  | none => (.next, r)
  | some frame =>
    if frame.next < frame.targets then (.goTo frame.caller, r)
    else (.onTo (frame.caller + 1) count, { r with call? := none })

/-- What block `ordinal` of a tape of `count` blocks does to playback. -/
def take {δ τ : Type} (r : Route) (ordinal : Nat) (kind : Tzx.Kind δ τ) (count : Nat)
    (only48K : Bool) : Turn × Route :=
  match kind with
  | .jump displacement =>
    (if displacement = 0 then .next else .hop ordinal displacement count, r)
  | .loopStart repetitions => (.next, { r with loop? := some ⟨ordinal, repetitions.toNat⟩ })
  | .loopEnd => r.closeLoop
  | .callSequence displacements => r.call ordinal count displacements
  | .callReturn => r.comeBack count
  | .stopIf48K => (if only48K then .stop else .next, r)
  | _ => (.next, r)

end Route

end Cassette
