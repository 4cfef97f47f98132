import Cassette.Proofs.Tolerance

/-! What stands behind a block. Someone who watches the line beside a recorder can measure the same
pulses (`watched`), and need not believe a block that is not spelled out by them (`Proves`). All
that a recorder holds at any time is backed by the pulses since the last block (`Backed`): the pilot
pulses it has counted, the bytes and bits, and half of a bit. Each call keeps it so
(`Backed.run`). Main statement: `invents_nothing`. -/

namespace Cassette.Recorder

variable {r : Recorder} {t : Timings} {width : Nat} {heard : List Nat}

/-! ### The line -/

/-- For each call the width of the pulse that it ends, if it ends one, on a line of which the level
and the tick of the latest edge are known. -/
def watched (level : Bool) (edge? : Option Nat) : List Call → List (Option Nat)
  | [] => []
  | .edge next tick :: rest =>
    if next = level then none :: watched level edge? rest
    else edge?.map (tick - ·) :: watched next (some tick) rest
  | .quiet _ :: rest => none :: watched level edge? rest
  | .finish :: rest => none :: watched level none rest

/-- The widths measured since the last block, after one more call at which this was measured and
returned. A call that returns a block makes a new start with its own width. -/
def since (heard : List Nat) : Option Nat × Option Bytes → List Nat
  | (width?, none) => heard ++ width?.toList
  | (width?, some _) => width?.toList

/-- The widths measured since the last block that was returned, if calls measure and return this. -/
def sinceBlock (log : List (Option Nat × Option Bytes)) : List Nat := log.foldl since []

/-- The latest of these widths spell a block out, behind a pilot and two sync pulses. What is
longer than the silence is no half of a bit; up to seven bits and a half may be left over. -/
inductive Proves (t : Timings) (silence : Nat) (block : Bytes) : List Nat → Prop
  | spelled {before pilot halves : List Nat} {first second : Nat} (long : 256 ≤ pilot.length)
      (tone : ∀ width ∈ pilot, Near width t.pilotPulse.toNat)
      (sync1 : Near first t.sync1.toNat) (sync2 : Near second t.sync2.toNat)
      (all : 16 * block.size ≤ halves.length) (few : halves.length ≤ 16 * block.size + 15)
      (half : ∀ width ∈ halves,
        (Near width t.zeroPulse.toNat ∨ Near width t.onePulse.toNat) ∧ width ≤ silence)
      (pairs : ∀ j b, (block.toList.flatMap Bits.bitsOf)[j]? = some b →
        ∃ first second, halves[2 * j]? = some first ∧ halves[2 * j + 1]? = some second ∧
          (b = true ↔ t.zeroPulse.toNat + t.onePulse.toNat < first + second)) :
      Proves t silence block (before ++ pilot ++ first :: second :: halves)

/-! ### Bits -/

theorem Spells.getElem? {bits : List Bool} (spells : r.Spells bits heard) {j : Nat} {b : Bool}
    (found : bits[j]? = some b) :
    ∃ first second, heard[2 * j]? = some first ∧ heard[2 * j + 1]? = some second ∧
      (b = true ↔ r.timings.zeroPulse.toNat + r.timings.onePulse.toNat < first + second) := by
  induction spells generalizing j with
  | nil => exact nomatch found
  | @cons b' first second bits rest _ _ together _ ih =>
    cases j with
    | zero =>
      obtain rfl := Option.some.inj found
      exact ⟨first, second, rfl, rfl, by rw [← together, decide_eq_true_iff]⟩
    | succ j => exact ih found

theorem Spells.length_eq {bits : List Bool} (spells : r.Spells bits heard) :
    heard.length = 2 * bits.length := by
  induction spells with
  | nil => rfl
  | cons _ _ _ _ ih =>
    simp only [List.length_cons, ih]
    omega

def held (r : Recorder) : List Bool := r.bytes.toList.flatMap Bits.bitsOf ++ r.bits

theorem length_bitsOf (b : UInt8) : (Bits.bitsOf b).length = 8 := by
  simp [Bits.bitsOf]

theorem length_held (r : Recorder) : r.held.length = 8 * r.bytes.size + r.bits.length := by
  simp [held, length_bitsOf, Nat.mul_comm]

theorem addBit_held (few : r.bits.length < 8) (b : Bool) :
    (r.addBit b).held = r.held ++ [b] ∧ (r.addBit b).bits.length < 8 := by
  by_cases full : (r.bits ++ [b]).length = 8
  · simp only [addBit, if_pos full, held, Array.toList_push, List.flatMap_append,
      List.flatMap_singleton, Bits.bitsOf_byteOf full, List.append_nil, List.append_assoc]
    exact ⟨trivial, by decide⟩
  · simp only [addBit, if_neg full, held, List.append_assoc]
    rw [List.length_append, List.length_singleton] at full ⊢
    exact ⟨trivial, by omega⟩

/-! ### Pulses -/

/-- The latest pulses are those of a pilot, no fewer than have been counted: the count may wrap
around. -/
def Piloted (t : Timings) (heard : List Nat) (n : UInt32) : Prop :=
  ∃ before pilot, heard = before ++ pilot ∧ n.toNat ≤ pilot.length ∧
    ∀ width ∈ pilot, near width t.pilotPulse

def Synced (t : Timings) (heard : List Nat) : Prop :=
  ∃ before first n, heard = before ++ [first] ∧ Piloted t before n ∧ enoughPilot ≤ n ∧
    near first t.sync1

/-- The latest pulses are a pilot and two sync pulses with these behind. -/
def Led (t : Timings) (heard halves : List Nat) : Prop :=
  ∃ before second, heard = before ++ second :: halves ∧ Synced t before ∧
    near second t.sync2

/-- What a recorder holds is backed by the pulses that have been heard. -/
inductive Backed (r : Recorder) (heard : List Nat) : Prop
  | idle (listening : r.listening = .idle) (empty : r.held = [])
  | pilot {n : UInt32} (listening : r.listening = .pilot n) (empty : r.held = [])
      (piloted : Piloted r.timings heard n)
  | sync (listening : r.listening = .sync) (empty : r.held = []) (synced : Synced r.timings heard)
  | data {half? : Option Nat} {halves : List Nat} (listening : r.listening = .data half?)
      (few : r.bits.length < 8) (led : Led r.timings heard (halves ++ half?.toList))
      (spells : r.Spells r.held halves)
      (half : ∀ width ∈ halves ++ half?.toList, r.isHalf width ∧ width ≤ r.silence)

theorem held_eq_nil (empty : r.held = []) : r.bits = [] := (List.append_eq_nil_iff.1 empty).2

theorem endBlock_backed (r : Recorder) (heard : List Nat) : r.endBlock.2.Backed heard :=
  .idle rfl rfl

theorem pulse_ends (r : Recorder) (width : Nat) :
    (r.pulse width).1 = none ∨ r.pulse width = r.endBlock := by
  cases listening : r.listening with
  | idle | pilot | sync => simp only [pulse, listening, true_or]
  | data half? => cases half? <;> simp only [pulse, listening] <;> split <;> simp

theorem Led.concat {halves : List Nat} (led : Led t heard halves) (width : Nat) :
    Led t (heard ++ [width]) (halves ++ [width]) := by
  obtain ⟨before, second, rfl, synced, sync2⟩ := led
  exact ⟨before, second, by simp, synced, sync2⟩

/-- A pulse adds to what is held only what it backs itself. -/
theorem Backed.pulse (backed : r.Backed heard) (short : r.listening = .idle ∨ width ≤ r.silence) :
    (r.pulse width).2.Backed (heard ++ [width]) := by
  cases backed with
  | idle listening empty =>
    by_cases pilot : near width r.timings.pilotPulse
    · rw [pulse_idle listening pilot]
      exact .pilot rfl empty ⟨heard, [width], rfl, Nat.le_refl 1, by simpa using pilot⟩
    · simp only [Recorder.pulse, listening, if_neg pilot]
      exact .idle rfl empty
  | @pilot n listening empty piloted =>
    by_cases pilot : near width r.timings.pilotPulse
    · rw [pulse_pilot listening pilot]
      obtain ⟨before, tone, rfl, counted, all⟩ := piloted
      refine .pilot rfl empty ⟨before, tone ++ [width], by simp, ?_, fun w member => ?_⟩
      · rw [UInt32.toNat_add, UInt32.toNat_one, List.length_append, List.length_singleton]
        exact Nat.le_trans (Nat.mod_le ..) (Nat.add_le_add_right counted 1)
      rcases List.mem_append.1 member with member | member
      · exact all w member
      · rwa [List.mem_singleton.1 member]
    · by_cases sync : enoughPilot ≤ n ∧ near width r.timings.sync1
      · simp only [Recorder.pulse, listening, if_neg pilot, if_pos sync]
        exact .sync rfl empty ⟨heard, width, n, rfl, piloted, sync⟩
      · simp only [Recorder.pulse, listening, if_neg pilot, if_neg sync]
        exact .idle rfl empty
  | sync listening empty synced =>
    by_cases sync : near width r.timings.sync2
    · simp only [Recorder.pulse, listening, if_pos sync]
      have led : Led r.timings (heard ++ [width]) ([] ++ none.toList) :=
        ⟨heard, width, rfl, synced, sync⟩
      refine .data rfl ?_ led ?_ (by simp)
      · exact held_eq_nil empty ▸ Nat.zero_lt_succ 7
      · exact empty ▸ Spells.nil
    · simp only [Recorder.pulse, listening, if_neg sync]
      exact .idle rfl empty
  | @data half? halves listening few led spells half =>
    have short := short.resolve_left fun idle => by cases listening.symm.trans idle
    by_cases again : r.isHalf width
    · have led := led.concat width
      have half : ∀ w ∈ halves ++ half?.toList ++ [width], r.isHalf w ∧ w ≤ r.silence := by
        intro w member
        rcases List.mem_append.1 member with earlier | last
        · exact half w earlier
        · exact List.mem_singleton.1 last ▸ ⟨again, short⟩
      cases half? with
      | none =>
        have waits : r.pulse width = (none, { r with listening := .data (some width) }) := by
          simp only [Recorder.pulse, listening]
          exact if_pos again
        simp only [Option.toList_none, List.append_nil] at led half
        rw [waits]
        exact .data rfl few led (spells.of_timings rfl) half
      | some first =>
        let one := decide (r.timings.zeroPulse.toNat + r.timings.onePulse.toNat < first + width)
        let added := { r.addBit one with listening := .data none }
        have adds : r.pulse width = (none, added) := by
          simp only [Recorder.pulse, listening]
          exact if_pos again
        obtain ⟨timings, silence, -⟩ := r.addBit_kept one
        obtain ⟨held, few⟩ := addBit_held few one
        have timings : added.timings = r.timings := timings
        have whole := (half first (by simp)).1
        have pair : r.Spells [one] [first, width] := .cons whole again rfl .nil
        have led : Led added.timings (heard ++ [width])
            (halves ++ [first, width] ++ none.toList) := by
          rw [timings]
          simpa using led
        have spells : added.Spells added.held (halves ++ [first, width]) := by
          rw [show added.held = r.held ++ [one] from held]
          exact (spells.append pair).of_timings timings
        rw [adds]
        refine .data rfl few led spells fun w member => ?_
        obtain ⟨near, within⟩ := half w (by simpa using member)
        exact ⟨by rwa [isHalf, timings], silence ▸ within⟩
    · have ended : r.pulse width = r.endBlock := by
        cases half? <;> simp only [Recorder.pulse, listening] <;> exact if_neg again
      rw [ended]
      exact endBlock_backed r _

/-! ### Calls -/

theorem Backed.turned (backed : r.Backed heard) (level : Bool) (tick : Nat) :
    (r.turned level tick).Backed heard := by
  cases backed with
  | idle listening empty => exact .idle listening empty
  | pilot listening empty piloted => exact .pilot listening empty piloted
  | sync listening empty synced => exact .sync listening empty synced
  | data listening few led spells half =>
    exact .data listening few led (spells.of_timings rfl) half

/-- An edge that changes the level keeps what is held backed, also where it ends a block. -/
theorem Backed.edge (backed : r.Backed heard) {level : Bool} (change : level ≠ r.level)
    (tick : Nat) :
    (r.edge level tick).2.level = level ∧ (r.edge level tick).2.edge? = some tick ∧
      (r.edge level tick).2.Backed
        (since heard (r.edge?.map (tick - ·), (r.edge level tick).1)) := by
  cases edge : r.edge? with
  | none =>
    rw [edge_first change edge]
    refine ⟨rfl, rfl, ?_⟩
    simpa [since] using backed.turned level tick
  | some last =>
    rw [edge_eq change edge]
    by_cases late : r.silence < tick - last
    · -- What comes behind the end of a block is backed whatever was heard before.
      have fresh (heard : List Nat) : Backed _ (heard ++ [tick - last]) :=
        ((endBlock_backed r heard).pulse (.inl rfl)).turned level tick
      rw [if_pos late]
      refine ⟨rfl, rfl, ?_⟩
      cases r.endBlock.1 with
      | none => exact fresh heard
      | some block => exact fresh []
    · have on := (backed.pulse (.inr (Nat.not_lt.1 late))).turned level tick
      rw [if_neg late]
      refine ⟨rfl, rfl, ?_⟩
      rcases r.pulse_ends (tick - last) with none | ended
      · rw [none]
        exact on
      · rw [ended]
        exact (endBlock_backed r _).turned level tick

theorem quiet_cases (r : Recorder) (tick : Nat) :
    r.quiet tick = r.endBlock ∨ r.quiet tick = (none, r) := by
  unfold quiet
  split
  · split
    · exact .inl rfl
    · exact .inr rfl
  · exact .inr rfl

theorem Backed.calls (backed : r.Backed heard) (calls : List Call) :
    (r.calls calls).2.Backed
      (((watched r.level r.edge? calls).zip (r.calls calls).1).foldl since heard) := by
  induction calls generalizing r heard with
  | nil => exact backed
  | cons call calls ih =>
    cases call with
    | edge level tick =>
      by_cases same : level = r.level
      · have nothing := edge_same same tick
        simp only [Recorder.calls, Call.run, nothing, watched, if_pos same, List.zip_cons_cons,
          List.foldl_cons, since, Option.toList_none, List.append_nil]
        exact ih backed
      · obtain ⟨swung, told, on⟩ := backed.edge same tick
        have on := ih on
        rw [swung, told] at on
        simp only [Recorder.calls, Call.run, watched, if_neg same, List.zip_cons_cons,
          List.foldl_cons]
        exact on
    | quiet tick =>
      simp only [Recorder.calls, Call.run, watched, List.zip_cons_cons, List.foldl_cons]
      rcases r.quiet_cases tick with ended | nothing
      · rw [ended]
        exact ih (endBlock_backed r _)
      · rw [nothing]
        simp only [since, Option.toList_none, List.append_nil]
        exact ih backed
    | finish => exact ih (endBlock_backed { r with edge? := none } _)

/-! ### Blocks -/

theorem endBlock_some {block : Bytes} (ended : r.endBlock.1 = some block) :
    block = r.bytes ∧ block ≠ #[] := by
  simp only [endBlock] at ended
  split at ended
  · cases ended
  · next filled =>
    obtain rfl := Option.some.inj ended
    exact ⟨rfl, by simpa using filled⟩

theorem Call.run_some {call : Call} {block : Bytes} (returned : (call.run r).1 = some block) :
    r.endBlock.1 = some block := by
  cases call with
  | edge level tick =>
    by_cases same : level = r.level
    · rw [Call.run, edge_same same] at returned
      cases returned
    · cases edge : r.edge? with
      | none =>
        rw [Call.run, edge_first same edge] at returned
        cases returned
      | some last =>
        rw [Call.run, edge_eq same edge] at returned
        split at returned
        · exact returned
        · rcases r.pulse_ends (tick - last) with none | ended
          · cases none.symm.trans returned
          · rwa [ended] at returned
  | quiet tick =>
    rcases r.quiet_cases tick with ended | nothing
    · rwa [Call.run, ended] at returned
    · rw [Call.run, nothing] at returned
      cases returned
  | finish => exact returned

/-- What a recorder holds is proved by what backs it, if none of the widths is too long to be
compared as it is. -/
theorem Backed.proves (backed : r.Backed heard) (small : ∀ width ∈ heard, width < 2 ^ 62)
    {block : Bytes} (ended : r.endBlock.1 = some block) :
    Proves r.timings r.silence block heard := by
  obtain ⟨rfl, filled⟩ := endBlock_some ended
  have some : 0 < r.bytes.size := Array.size_pos_iff.2 filled
  have length := r.length_held
  cases backed with
  | idle _ empty | pilot _ empty | sync _ empty =>
    rw [empty, List.length_nil] at length
    omega
  | @data half? halves listening few led spells half =>
    obtain ⟨_, second, rfl, ⟨_, first, _, rfl, piloted, long, sync1⟩, sync2⟩ := led
    obtain ⟨before, pilot, rfl, counted, tone⟩ := piloted
    have pairs := spells.length_eq
    have pending : half?.toList.length ≤ 1 := by cases half? <;> simp
    have stretch : before ++ pilot ++ [first] ++ second :: (halves ++ half?.toList) =
        before ++ pilot ++ first :: second :: (halves ++ half?.toList) := by simp
    have long : 256 ≤ pilot.length :=
      Nat.le_trans (UInt32.le_iff_toNat_le.1 long) counted
    rw [stretch] at small ⊢
    refine .spelled long (fun w member => (near_iff (small w ?_)).1 (tone w member))
      ((near_iff (small first ?_)).1 sync1) ((near_iff (small second ?_)).1 sync2) ?_ ?_
      (fun w member => ?_) fun j b found => ?_
    · simp [member]
    · simp
    · simp
    · rw [List.length_append]
      omega
    · rw [List.length_append]
      omega
    · obtain ⟨near, within⟩ := half w member
      have small := small w
        (List.mem_append_right _ (List.mem_cons_of_mem _ (List.mem_cons_of_mem _ member)))
      rw [isHalf, Bool.or_eq_true, near_iff small, near_iff small] at near
      exact ⟨near, within⟩
    · have found : r.held[j]? = Option.some b :=
        (List.getElem?_append_left (List.getElem?_eq_some_iff.1 found).1).trans found
      obtain ⟨first, second, one, two, together⟩ := spells.getElem? found
      have inside := (List.getElem?_eq_some_iff.1 two).1
      refine ⟨first, second, ?_, ?_, together⟩
      · rwa [List.getElem?_append_left (by omega)]
      · rwa [List.getElem?_append_left inside]

theorem Call.run_kept (r : Recorder) (call : Call) :
    (call.run r).2.timings = r.timings ∧ (call.run r).2.silence = r.silence := by
  cases call with
  | edge level tick =>
    by_cases same : level = r.level
    · rw [Call.run, edge_same same]
      exact ⟨rfl, rfl⟩
    · cases edge : r.edge? with
      | none =>
        rw [Call.run, edge_first same edge]
        exact ⟨rfl, rfl⟩
      | some last =>
        rw [Call.run, edge_eq same edge]
        split
        · exact r.endBlock.2.pulse_kept (tick - last)
        · exact r.pulse_kept (tick - last)
  | quiet tick =>
    rcases r.quiet_cases tick with ended | nothing
    · rw [Call.run, ended]
      exact ⟨rfl, rfl⟩
    · rw [Call.run, nothing]
      exact ⟨rfl, rfl⟩
  | finish => exact ⟨rfl, rfl⟩

theorem calls_kept (r : Recorder) (calls : List Call) :
    (r.calls calls).2.timings = r.timings ∧ (r.calls calls).2.silence = r.silence := by
  induction calls generalizing r with
  | nil => exact ⟨rfl, rfl⟩
  | cons call calls ih =>
    obtain ⟨timings, silence⟩ := call.run_kept r
    exact ⟨(ih _).1.trans timings, (ih _).2.trans silence⟩

theorem mem_foldl_since {log : List (Option Nat × Option Bytes)} {width : Nat}
    (member : width ∈ log.foldl since heard) :
    width ∈ heard ∨ ∃ block?, (some width, block?) ∈ log := by
  induction log generalizing heard with
  | nil => exact .inl member
  | cons entry log ih =>
    obtain ⟨width?, block?⟩ := entry
    rcases ih member with before | later
    · have either : width ∈ heard ∨ width ∈ width?.toList := by
        cases block? with
        | none => exact List.mem_append.1 before
        | some _ => exact .inr before
      refine either.imp_right fun here => ⟨block?, ?_⟩
      rw [Option.mem_toList.1 here]
      exact List.mem_cons_self ..
    · obtain ⟨block?, later⟩ := later
      exact .inr ⟨block?, List.mem_cons_of_mem _ later⟩

/-- A recorder makes nothing up. Whatever it has been told and asked before, and whatever call
returns a block: the block is not empty, and the latest widths on the line since the block before
it spell it out, behind a pilot and two sync pulses. No width may be too long for a word to hold
it four times. -/
theorem invents_nothing {timings : Timings} {ticksPerSecond : Nat} {calls : List Call}
    {call : Call} {block : Bytes}
    (small : ∀ width, some width ∈ watched false none calls → width < 2 ^ 62) :
    let r := new timings ticksPerSecond
    (call.run (r.calls calls).2).1 = some block →
      block ≠ #[] ∧ Proves timings r.silence block
        (sinceBlock ((watched false none calls).zip (r.calls calls).1)) := by
  intro r returned
  have fresh : r.Backed [] := .idle rfl rfl
  obtain ⟨timings, silence⟩ := r.calls_kept calls
  have ended := Call.run_some returned
  have small : ∀ width ∈ sinceBlock ((watched false none calls).zip (r.calls calls).1),
      width < 2 ^ 62 := by
    intro width member
    rcases mem_foldl_since member with none | ⟨block?, measured⟩
    · cases none
    · exact small width (List.of_mem_zip measured).1
  have proved := (fresh.calls calls).proves small ended
  rw [timings, silence] at proved
  exact ⟨(endBlock_some ended).2, proved⟩

/-- Two ones and two zeros are followed by a pulse that is too long for a bit, so these are lost;
then comes a whole byte with a bit and a half behind it, and silence. -/
theorem invents_nothing_abandoned :
    let r := new .rom 3500000
    let leader := List.replicate 256 2168 ++ [667, 735]
    let byte := Signal.DataCursor.pulsesOf 855 1710 (Bits.bitsOf 0xA5)
    let widths := leader ++ [1710, 1710, 1710, 1710, 855, 855, 855, 855, 5000] ++ leader ++ byte ++
      [1710, 1283, 1710]
    let calls := edgesOf 1000 widths
    (∀ width, some width ∈ watched false none calls → width < 2 ^ 62) ∧
      (Call.run (r.calls calls).2 (.quiet 2000000)).1 = some #[0xA5] ∧
      Proves .rom 17500 #[0xA5]
        (sinceBlock ((watched false none calls).zip (r.calls calls).1)) := by
  intro r leader byte widths calls
  have returned : (Call.run (r.calls calls).2 (.quiet 2000000)).1 = some #[0xA5] := by
    decide +kernel
  have small : ∀ width, some width ∈ watched false none calls → width < 2 ^ 62 := by
    have all : ∀ width? ∈ watched false none calls, ∀ width ∈ width?, width < 2 ^ 62 := by
      decide +kernel
    exact fun width member => all _ member width rfl
  exact ⟨small, returned, (invents_nothing small returned).2⟩

end Cassette.Recorder
