import Mathlib.Algebra.Ring.Nat
import Cassette.Recorder

/-! What a recorder hears. A train of pulses is the list of their widths, and `Recorder.Hears`
says that a recorder hears one through without ending a block. A block is a pilot, two sync
pulses and two pulses for each bit; each pulse may be off by a quarter, and the two of a bit
have only to be long together just when the bit is a one (`Spells`). Main statement:
`hears_block`, after such a train the recorder holds the bytes that the bits make up. -/

namespace Cassette.Recorder

variable {r r' r'' : Recorder} {width first second : Nat} {n : UInt32} {widths more : List Nat}

/-- Pulses are heard one after the other, none of which ends a block. -/
inductive Hears : Recorder → List Nat → Recorder → Prop
  | nil {r : Recorder} : Hears r [] r
  | cons {r r' r'' : Recorder} {width : Nat} {rest : List Nat}
      (heard : r.pulse width = (none, r')) (on : Hears r' rest r'') : Hears r (width :: rest) r''

theorem Hears.append (h : r.Hears widths r') (h' : r'.Hears more r'') :
    r.Hears (widths ++ more) r'' := by
  induction h with
  | nil => exact h'
  | cons heard _ ih => exact .cons heard (ih h')

theorem Hears.one (heard : r.pulse width = (none, r')) : r.Hears [width] r' := .cons heard .nil

/-- The comparison is one of what four times the width leaves in a word. -/
theorem near_iff_mod {target : UInt16} : near width target ↔
    3 * target.toNat ≤ 4 * width % 2 ^ 64 ∧ 4 * width % 2 ^ 64 ≤ 5 * target.toNat := by
  have small := target.toNat_lt
  have quadruple : (4 * UInt64.ofNat width).toNat = 4 * width % 2 ^ 64 := by
    rw [UInt64.toNat_mul, UInt64.toNat_ofNat', Nat.mul_mod_mod]
    rfl
  have three : (3 * target.toUInt64).toNat = 3 * target.toNat := by
    rw [UInt64.toNat_mul, UInt16.toNat_toUInt64]
    exact Nat.mod_eq_of_lt (show 3 * target.toNat < 2 ^ 64 by omega)
  have five : (5 * target.toUInt64).toNat = 5 * target.toNat := by
    rw [UInt64.toNat_mul, UInt16.toNat_toUInt64]
    exact Nat.mod_eq_of_lt (show 5 * target.toNat < 2 ^ 64 by omega)
  simp only [near, Bool.and_eq_true, decide_eq_true_eq, UInt64.le_iff_toNat_le, quadruple, three,
    five]

theorem near_self (target : UInt16) : near target.toNat target := by
  have small := target.toNat_lt
  rw [near_iff_mod]
  omega

/-! ### The pilot -/

/-- In front of a block: nothing of it has been heard, but for one pulse that may have been
taken for the first of a pilot. -/
structure Poised (r : Recorder) : Prop where
  listening : r.listening = .idle ∨ r.listening = .pilot 1
  bytes : r.bytes = #[]
  bits : r.bits = []

theorem pulse_pilot (listening : r.listening = .pilot n)
    (pilot : near width r.timings.pilotPulse) :
    r.pulse width = (none, { r with listening := .pilot (n + 1) }) := by
  simp only [pulse, listening, pilot, ↓reduceIte]

theorem pulse_idle (listening : r.listening = .idle) (pilot : near width r.timings.pilotPulse) :
    r.pulse width = (none, { r with listening := .pilot 1 }) := by
  simp only [pulse, listening, pilot, ↓reduceIte]

theorem hears_pilot (listening : r.listening = .pilot n)
    (pilot : ∀ width ∈ widths, near width r.timings.pilotPulse) :
    r.Hears widths { r with listening := .pilot (n + .ofNat widths.length) } := by
  induction widths generalizing r n with
  | nil =>
    obtain ⟨timings, silence, _, level, edge?, bytes, bits⟩ := r
    obtain rfl : _ = Listening.pilot n := listening
    rw [List.length_nil, show UInt32.ofNat 0 = 0 from rfl, UInt32.add_zero]
    exact .nil
  | cons width rest ih =>
    have counted := pulse_pilot listening (pilot width (by simp))
    refine .cons counted ?_
    have on := ih (r := { r with listening := .pilot (n + 1) }) rfl
      fun w hw => pilot w (by simp [hw])
    rw [List.length_cons, Nat.add_comm, UInt32.ofNat_add, ← UInt32.add_assoc]
    exact on

def piloted (r : Recorder) : Nat :=
  match r.listening with
  | .pilot count => count.toNat
  | _ => 0

theorem Poised.piloted_le (poised : r.Poised) : r.piloted ≤ 1 := by
  rcases poised.listening with idle | one
  · simp [piloted, idle]
  · simp [piloted, one]

/-- A whole pilot is counted, perhaps with one pulse too many, as long as the count does not wrap
around. -/
theorem Poised.hears_pilot (poised : r.Poised)
    (pilot : ∀ width ∈ widths, near width r.timings.pilotPulse) (some : widths ≠ [])
    (few : r.piloted + widths.length < 2 ^ 32) :
    ∃ n : UInt32, widths.length ≤ n.toNat ∧ r.Hears widths { r with listening := .pilot n } := by
  rcases poised.listening with idle | one
  · cases widths with
    | nil => exact absurd rfl some
    | cons width rest =>
      have counted := pulse_idle idle (pilot width (by simp))
      have on : Hears { r with listening := .pilot 1 } rest
          { r with listening := .pilot (1 + .ofNat rest.length) } :=
        Recorder.hears_pilot rfl fun w hw => pilot w (by simp [hw])
      refine ⟨1 + .ofNat rest.length, ?_, .cons counted on⟩
      rw [UInt32.toNat_add, UInt32.toNat_ofNat', UInt32.toNat_one]
      rw [List.length_cons] at few ⊢
      omega
  · have counted : r.piloted = 1 := by simp [piloted, one]
    refine ⟨1 + .ofNat widths.length, ?_, Recorder.hears_pilot one pilot⟩
    rw [UInt32.toNat_add, UInt32.toNat_ofNat', UInt32.toNat_one]
    omega

/-! ### The sync pulses -/

/-- The two sync pulses are believed after a pilot that was long enough, if the first cannot be
taken for one more pulse of it. -/
theorem hears_sync (listening : r.listening = .pilot n) (enough : enoughPilot ≤ n)
    (other : near first r.timings.pilotPulse = false) (sync1 : near first r.timings.sync1)
    (sync2 : near second r.timings.sync2) :
    r.Hears [first, second] { r with listening := .data none } := by
  have one : r.pulse first = (none, { r with listening := .sync }) := by
    simp only [pulse, listening, other, enough, sync1, and_self, Bool.false_eq_true, ↓reduceIte]
  have two : pulse { r with listening := .sync } second =
      (none, { r with listening := .data none }) := by
    simp only [pulse, sync2, ↓reduceIte]
  exact .cons one (.one two)

/-! ### The bits -/

/-- The pulses that can stand for bits: two halves for each, together longer than a zero and a
one just when the bit is a one. -/
inductive Spells (r : Recorder) : List Bool → List Nat → Prop
  | nil : Spells r [] []
  | cons {b : Bool} {first second : Nat} {bits : List Bool} {rest : List Nat}
      (half : r.isHalf first) (half' : r.isHalf second)
      (together :
        decide (r.timings.zeroPulse.toNat + r.timings.onePulse.toNat < first + second) = b)
      (on : Spells r bits rest) : Spells r (b :: bits) (first :: second :: rest)

theorem Spells.append {bits bits' : List Bool} (h : r.Spells bits widths)
    (h' : r.Spells bits' more) : r.Spells (bits ++ bits') (widths ++ more) := by
  induction h with
  | nil => exact h'
  | cons half half' together _ ih => exact .cons half half' together ih

/-- Only the timings say what pulses stand for. -/
theorem Spells.of_timings {bits : List Bool} (h : r.Spells bits widths)
    (timings : r'.timings = r.timings) : r'.Spells bits widths := by
  induction h with
  | nil => exact .nil
  | cons half half' together _ ih =>
    simp only [isHalf, ← timings] at half half' together
    exact .cons half half' together ih

theorem addBit_kept (r : Recorder) (b : Bool) :
    (r.addBit b).timings = r.timings ∧ (r.addBit b).silence = r.silence ∧
      (r.addBit b).listening = r.listening := by
  simp only [addBit]
  split <;> exact ⟨rfl, rfl, rfl⟩

theorem hears_bit (listening : r.listening = .data none) (half : r.isHalf first)
    (half' : r.isHalf second) :
    r.Hears [first, second] (r.addBit
      (decide (r.timings.zeroPulse.toNat + r.timings.onePulse.toNat < first + second))) := by
  obtain ⟨timings, silence, _, level, edge?, bytes, bits⟩ := r
  obtain rfl : _ = Listening.data none := listening
  have one : pulse ⟨timings, silence, .data none, level, edge?, bytes, bits⟩ first =
      (none, ⟨timings, silence, .data (some first), level, edge?, bytes, bits⟩) := by
    simp only [pulse]
    exact if_pos half
  refine .cons one (.one ?_)
  simp only [pulse]
  refine (if_pos half').trans ?_
  simp only [addBit]
  split <;> rfl

theorem hears_bits {bits : List Bool} (listening : r.listening = .data none)
    (spells : r.Spells bits widths) : r.Hears widths (bits.foldl addBit r) := by
  induction bits generalizing r widths with
  | nil =>
    cases spells
    exact .nil
  | cons b bits ih =>
    cases spells with
    | cons half half' together on =>
      obtain ⟨timings, -, same⟩ := r.addBit_kept b
      have added := hears_bit listening half half'
      rw [together] at added
      exact added.append (ih (same.trans listening) (on.of_timings timings))

/-- Eight bits make a byte. -/
theorem foldl_addBit_bitsOf (whole : r.bits = []) (b : UInt8) :
    (Bits.bitsOf b).foldl addBit r = { r with bytes := r.bytes.push b } := by
  obtain ⟨timings, silence, listening, level, edge?, bytes, bits⟩ := r
  obtain rfl : bits = [] := whole
  have packed := Bits.byteOf_bitsOf b
  simp only [Bits.bitsOf, show List.range 8 = [0, 1, 2, 3, 4, 5, 6, 7] from rfl, List.map_cons,
    List.map_nil] at packed
  simp only [Bits.bitsOf, show List.range 8 = [0, 1, 2, 3, 4, 5, 6, 7] from rfl, List.map_cons,
    List.map_nil, List.foldl_cons, List.foldl_nil, addBit, List.nil_append, List.cons_append,
    List.length_cons, List.length_nil, Nat.reduceAdd, Nat.reduceEqDiff, ↓reduceIte, packed]

theorem foldl_addBit_bytes (whole : r.bits = []) (payload : List UInt8) :
    (payload.flatMap Bits.bitsOf).foldl addBit r =
      { r with bytes := r.bytes ++ payload.toArray } := by
  induction payload generalizing r with
  | nil => simp
  | cons b payload ih =>
    have rest := ih (r := { r with bytes := r.bytes.push b }) whole
    rw [List.flatMap_cons, List.foldl_append, foldl_addBit_bitsOf whole b, rest]
    simp

/-! ### Blocks -/

/-- The pulses of a block, each near enough to what the recorder expects, and not too many of them
for its count. -/
inductive Saves (r : Recorder) (payload : List UInt8) : List Nat → Prop
  | block {pilot halves : List Nat} {first second : Nat} (long : 256 ≤ pilot.length)
      (few : r.piloted + pilot.length < 2 ^ 32)
      (tone : ∀ width ∈ pilot, near width r.timings.pilotPulse)
      (other : near first r.timings.pilotPulse = false) (sync1 : near first r.timings.sync1)
      (sync2 : near second r.timings.sync2)
      (spells : r.Spells (payload.flatMap Bits.bitsOf) halves) :
      Saves r payload (pilot ++ first :: second :: halves)

/-- A recorder in front of a block hears it through and then holds its bytes. -/
theorem hears_block {payload : List UInt8} (poised : r.Poised) (saves : r.Saves payload widths) :
    r.Hears widths { r with listening := .data none, bytes := payload.toArray, bits := [] } := by
  obtain ⟨long, few, tone, other, sync1, sync2, spells⟩ := saves
  next pilot halves first second =>
  have some : pilot ≠ [] := by
    rintro rfl
    exact absurd long (by decide)
  obtain ⟨n, counted, leader⟩ := poised.hears_pilot tone some few
  have enough : enoughPilot ≤ n := UInt32.le_iff_toNat_le.2 (Nat.le_trans long counted)
  have sync : Hears { r with listening := .pilot n } [first, second]
      { r with listening := .data none } := hears_sync rfl enough other sync1 sync2
  have data : Hears { r with listening := .data none } halves
      { r with listening := .data none, bytes := payload.toArray, bits := [] } := by
    have added := foldl_addBit_bytes (r := { r with listening := .data none }) poised.bits payload
    have all := hears_bits (r := { r with listening := .data none }) rfl (spells.of_timings rfl)
    rw [added] at all
    simpa only [poised.bytes, poised.bits, Array.empty_append] using all
  exact leader.append (sync.append data)

/-! ### Edges -/

def turned (r : Recorder) (level : Bool) (tick : Nat) : Recorder :=
  { r with level, edge? := some tick }

theorem addBit_turned (r : Recorder) (level : Bool) (tick : Nat) (b : Bool) :
    (r.turned level tick).addBit b = (r.addBit b).turned level tick := by
  by_cases full : (r.bits ++ [b]).length = 8 <;> simp only [addBit, turned, full, ↓reduceIte]

/-- What a pulse comes to does not depend on the edge at its end. -/
theorem pulse_turned (r : Recorder) (level : Bool) (tick width : Nat) :
    (r.turned level tick).pulse width =
      ((r.pulse width).1, (r.pulse width).2.turned level tick) := by
  have half : (r.turned level tick).isHalf width = r.isHalf width := rfl
  have state : (r.turned level tick).listening = r.listening := rfl
  cases listening : r.listening with
  | idle | pilot | sync =>
    simp only [pulse, state, listening]
    rfl
  | data first =>
    cases first with
    | none =>
      simp only [pulse, state, listening, half]
      split <;> rfl
    | some first =>
      simp only [pulse, state, listening, half]
      split
      · simp only [addBit_turned]
        rfl
      · rfl

theorem pulse_kept (r : Recorder) (width : Nat) :
    (r.pulse width).2.timings = r.timings ∧ (r.pulse width).2.silence = r.silence := by
  cases listening : r.listening with
  | idle | pilot | sync => simp only [pulse, listening, and_self]
  | data first =>
    cases first with
    | none =>
      simp only [pulse, listening]
      split <;> exact ⟨rfl, rfl⟩
    | some first =>
      simp only [pulse, listening]
      split
      · obtain ⟨timings, silence, -⟩ := r.addBit_kept
          (decide (r.timings.zeroPulse.toNat + r.timings.onePulse.toNat < first + width))
        exact ⟨timings, silence⟩
      · exact ⟨rfl, rfl⟩

theorem edge_soon (level : Bool) (tick : Nat) (soon : width ≤ r.silence) :
    (r.turned level tick).edge (!level) (tick + width) =
      ((r.pulse width).1, (r.pulse width).2.turned (!level) (tick + width)) := by
  have change : ¬ (!level) = (r.turned level tick).level := by simp [turned]
  have passed : tick + width - tick = width := Nat.add_sub_cancel_left tick width
  simp only [edge, if_neg change]
  simp only [turned, passed, if_neg (Nat.not_lt.2 soon)]
  exact pulse_turned r (!level) (tick + width) width

theorem edge_same {level : Bool} (same : level = r.level) (tick : Nat) :
    r.edge level tick = (none, r) := by
  simp only [edge, if_pos same]

theorem edge_first {level : Bool} (change : level ≠ r.level) (first : r.edge? = none) (tick : Nat) :
    r.edge level tick = (none, r.turned level tick) := by
  simp only [edge, if_neg change, first]
  rfl

/-- An edge that changes the level is the end of a pulse; one that is longer than the silence ends
the block first, and nothing else then. -/
theorem edge_eq {level : Bool} {tick last : Nat} (change : level ≠ r.level)
    (edge : r.edge? = some last) :
    r.edge level tick =
      if r.silence < tick - last then
        (r.endBlock.1, (r.endBlock.2.pulse (tick - last)).2.turned level tick)
      else ((r.pulse (tick - last)).1, (r.pulse (tick - last)).2.turned level tick) := by
  have late := pulse_turned r.endBlock.2 level tick (tick - last)
  have soon := pulse_turned r level tick (tick - last)
  simp only [Recorder.edge, if_neg change, edge]
  split
  · rw [Prod.mk.injEq]
    exact ⟨rfl, congrArg Prod.snd late⟩
  · exact soon

/-- A long gap ends what was being heard, and then there is nothing left but perhaps the first
pulse of a pilot. -/
theorem edge_late {level : Bool} {tick last : Nat} (change : level ≠ r.level)
    (edge : r.edge? = some last) (late : r.silence < tick - last) :
    ∃ r' : Recorder, r.edge level tick = (r.endBlock.1, r'.turned level tick) ∧ r'.Poised ∧
      r'.timings = r.timings ∧ r'.silence = r.silence := by
  have closed : r.endBlock.2.listening = .idle := rfl
  have gone := (edge_eq change edge).trans (if_pos late)
  by_cases pilot : near (tick - last) r.timings.pilotPulse
  · rw [pulse_idle closed pilot] at gone
    exact ⟨_, gone, ⟨.inr rfl, rfl, rfl⟩, rfl, rfl⟩
  · have none : (r.endBlock.2.pulse (tick - last)).2 = r.endBlock.2 := by
      simp only [pulse, closed]
      exact congrArg (fun l => Recorder.mk _ _ l _ _ _ _) (if_neg pilot)
    rw [none] at gone
    exact ⟨_, gone, ⟨.inl rfl, rfl, rfl⟩, rfl, rfl⟩

end Cassette.Recorder
