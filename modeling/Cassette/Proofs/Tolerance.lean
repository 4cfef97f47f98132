import Mathlib.Algebra.Ring.Nat
import Mathlib.Data.List.Forall2
import Mathlib.Logic.Function.Iterate
import Cassette.Proofs.Listening
import Cassette.Proofs.Payload

/-! How far off the pulses of a block may be. A recorder is told of edges, one at the end of each
pulse (`edgesOf`), and each width may be off by a quarter, whatever the others are (`Near`). That
is not too far off if no pulse can then be taken for another one: the sums of the two halves of a
bit stay on their sides of that of a zero and a one, and nothing is as long as the silence
(`Timings.Tolerant`). The pulses of the ROM leave just so much room. Main statement: `recovers`. -/

namespace Cassette

/-- Off by no more than a quarter of what it should be. -/
def Near (width target : Nat) : Prop := 4 * ((width : Int) - target).natAbs ≤ target

instance (width target : Nat) : Decidable (Near width target) :=
  inferInstanceAs (Decidable (_ ≤ _))

theorem near_iff_between {width target : Nat} :
    Near width target ↔ 3 * target ≤ 4 * width ∧ 4 * width ≤ 5 * target := by
  unfold Near
  omega

/-- The widths that the pulses of a block should have, with so many of them in its pilot. -/
def Timings.widthsOf (t : Timings) (pilot : Nat) (payload : List UInt8) : List Nat :=
  List.replicate pilot t.pilotPulse.toNat ++ t.sync1.toNat :: t.sync2.toNat ::
    Signal.DataCursor.pulsesOf t.zeroPulse t.onePulse (payload.flatMap Bits.bitsOf)

/-- Timings with which every pulse may be off by a quarter: a sync pulse is still shorter than one
of the pilot, two halves of a zero are together no longer than a zero and a one and those of a one
are longer, and all are shorter than two ones. -/
structure Timings.Tolerant (t : Timings) : Prop where
  sync1_short : 5 * t.sync1.toNat < 3 * t.pilotPulse.toNat
  zeros_short : 2 * (5 * t.zeroPulse.toNat / 4) ≤ t.zeroPulse.toNat + t.onePulse.toNat
  ones_long : t.zeroPulse.toNat + t.onePulse.toNat < 2 * ((3 * t.onePulse.toNat + 3) / 4)
  pilot_short : 5 * t.pilotPulse.toNat ≤ 8 * t.onePulse.toNat
  sync2_short : 5 * t.sync2.toNat ≤ 8 * t.onePulse.toNat

theorem Timings.rom_tolerant : rom.Tolerant := by
  constructor <;> decide

namespace Recorder

variable {r r' : Recorder} {level : Bool} {tick start pilot : Nat} {widths more : List Nat}

/-- A width of which four times fit into a word is compared as it is. -/
theorem near_iff {width : Nat} {target : UInt16} (small : width < 2 ^ 62) :
    near width target ↔ Near width target.toNat := by
  rw [near_iff_mod, near_iff_between, Nat.mod_eq_of_lt (by omega)]

theorem near_small {width : Nat} {target : UInt16} (near : Near width target.toNat) :
    width < 2 ^ 62 := by
  have small := target.toNat_lt
  obtain ⟨-, le⟩ := near_iff_between.1 near
  omega

theorem near_of {width : Nat} {target : UInt16} (nearby : Near width target.toNat) :
    near width target := (near_iff (near_small nearby)).2 nearby

/-! ### Calls -/

inductive Call
  | edge (level : Bool) (tick : Nat)
  | quiet (tick : Nat)
  | finish
  deriving DecidableEq, Repr

def Call.run (r : Recorder) : Call → Option Bytes × Recorder
  | .edge level tick => r.edge level tick
  | .quiet tick => r.quiet tick
  | .finish => r.finish

/-- Calls one after the other; gives for each the block that it ends. -/
def calls (r : Recorder) : List Call → List (Option Bytes) × Recorder
  | [] => ([], r)
  | call :: rest =>
    let (block, r) := call.run r
    let (blocks, r) := r.calls rest
    (block :: blocks, r)

theorem calls_append (r : Recorder) (first rest : List Call) :
    r.calls (first ++ rest) =
      ((r.calls first).1 ++ ((r.calls first).2.calls rest).1,
        ((r.calls first).2.calls rest).2) := by
  induction first generalizing r with
  | nil => rfl
  | cons call first ih => simp only [List.cons_append, calls, ih]

/-- The edges at the ends of pulses that follow each other from an edge on. -/
def swings (level : Bool) (tick : Nat) : List Nat → List Call
  | [] => []
  | width :: rest => .edge (!level) (tick + width) :: swings (!level) (tick + width) rest

def edgesOf (start : Nat) (widths : List Nat) : List Call :=
  .edge true start :: swings true start widths

theorem swings_append : swings level tick (widths ++ more) =
    swings level tick widths ++ swings (not^[widths.length] level) (tick + widths.sum) more := by
  induction widths generalizing level tick with
  | nil => rfl
  | cons width rest ih =>
    simp only [List.cons_append, swings, ih, List.length_cons, Function.iterate_succ_apply,
      List.sum_cons, Nat.add_assoc]

theorem calls_swings (hears : r.Hears widths r') (short : ∀ width ∈ widths, width ≤ r.silence)
    (level : Bool) (tick : Nat) :
    (r.turned level tick).calls (swings level tick widths) =
      (List.replicate widths.length none,
        r'.turned (not^[widths.length] level) (tick + widths.sum)) := by
  induction hears generalizing level tick with
  | nil => rfl
  | @cons r _ _ width rest heard _ ih =>
    have here := edge_soon level tick (short width (by simp))
    have kept := (r.pulse_kept width).2
    rw [heard] at here kept
    have on := ih (fun w member => kept ▸ short w (by simp [member])) (!level) (tick + width)
    simp only [swings, calls, Call.run, here, on, List.length_cons, List.replicate_succ,
      Function.iterate_succ_apply, List.sum_cons, Nat.add_assoc]

/-! ### Pulses -/

theorem near_append {front back : List Nat} (near : List.Forall₂ Near widths (front ++ back)) :
    ∃ first rest, widths = first ++ rest ∧ List.Forall₂ Near first front ∧
      List.Forall₂ Near rest back :=
  ⟨_, _, (List.take_append_drop front.length widths).symm, List.forall₂_take_append _ _ _ near,
    List.forall₂_drop_append _ _ _ near⟩

theorem near_of_mem {targets : List Nat} (near : List.Forall₂ Near widths targets) {width : Nat}
    (member : width ∈ widths) : ∃ target ∈ targets, Near width target := by
  induction near with
  | nil => cases member
  | @cons first target widths targets here _ ih =>
    rcases List.mem_cons.1 member with rfl | later
    · exact ⟨target, by simp, here⟩
    · obtain ⟨target, among, near⟩ := ih later
      exact ⟨target, by simp [among], near⟩

/-- The halves of bits may each be off by a quarter. -/
theorem spells_of_near (tolerant : r.timings.Tolerant) {bits : List Bool}
    (near : List.Forall₂ Near widths
      (Signal.DataCursor.pulsesOf r.timings.zeroPulse r.timings.onePulse bits)) :
    r.Spells bits widths := by
  induction bits generalizing widths with
  | nil =>
    obtain rfl := List.forall₂_nil_right_iff.1 near
    exact .nil
  | cons b bits ih =>
    obtain ⟨halves, rest, rfl, here, on⟩ := near_append near
    obtain _ | ⟨first_near, _ | ⟨second_near, _ | _⟩⟩ := here
    next first second =>
    have zeros := tolerant.zeros_short
    have ones := tolerant.ones_long
    have half {width : Nat} (near : Near width (Signal.DataCursor.widthOf r.timings.zeroPulse
        r.timings.onePulse b).toNat) : r.isHalf width := by
      rw [isHalf, Bool.or_eq_true]
      cases b with
      | false => exact .inl (near_of near)
      | true => exact .inr (near_of near)
    refine .cons (half first_near) (half second_near) ?_ (ih on)
    cases b with
    | false =>
      obtain ⟨-, le⟩ := near_iff_between.1 first_near
      obtain ⟨-, le'⟩ := near_iff_between.1 second_near
      simp only [Signal.DataCursor.widthOf, Bool.false_eq_true, ↓reduceIte] at le le'
      simp only [decide_eq_false_iff_not]
      omega
    | true =>
      obtain ⟨ge, -⟩ := near_iff_between.1 first_near
      obtain ⟨ge', -⟩ := near_iff_between.1 second_near
      simp only [Signal.DataCursor.widthOf, ↓reduceIte] at ge ge'
      have least : (3 * r.timings.onePulse.toNat + 3) / 4 ≤ first := by omega
      have least' : (3 * r.timings.onePulse.toNat + 3) / 4 ≤ second := by omega
      simp only [decide_eq_true_eq]
      omega

theorem saves_of_near (tolerant : r.timings.Tolerant) (long : 256 ≤ pilot)
    (few : r.piloted + pilot < 2 ^ 32) {payload : List UInt8}
    (near : List.Forall₂ Near widths (r.timings.widthsOf pilot payload)) :
    r.Saves payload widths := by
  obtain ⟨tone, rest, rfl, pilots, near⟩ := near_append near
  obtain _ | ⟨first_near, _ | ⟨second_near, near⟩⟩ := near
  next first second halves =>
  have length : tone.length = pilot := pilots.length_eq.trans List.length_replicate
  refine .block (length ▸ long) (length ▸ few) (fun width member => ?_) ?_ (near_of first_near)
    (near_of second_near) (spells_of_near tolerant near)
  · obtain ⟨target, among, near⟩ := near_of_mem pilots member
    rw [List.eq_of_mem_replicate among] at near
    exact near_of near
  · have short := tolerant.sync1_short
    rw [← Bool.not_eq_true, near_iff (near_small first_near), near_iff_between]
    obtain ⟨-, le⟩ := near_iff_between.1 first_near
    omega

theorem short_of_near (tolerant : r.timings.Tolerant)
    (silence : 2 * r.timings.onePulse.toNat ≤ r.silence) {payload : List UInt8}
    (near : List.Forall₂ Near widths (r.timings.widthsOf pilot payload)) :
    ∀ width ∈ widths, width ≤ r.silence := by
  intro width member
  obtain ⟨target, among, near⟩ := near_of_mem near member
  obtain ⟨-, le⟩ := near_iff_between.1 near
  have le' : 5 * target ≤ 8 * r.timings.onePulse.toNat := by
    obtain ⟨sync1, zeros, ones, pilot_short, sync2⟩ := tolerant
    simp only [Timings.widthsOf, List.mem_append, List.mem_cons] at among
    rcases among with tone | rfl | rfl | half
    · rwa [List.eq_of_mem_replicate tone]
    · omega
    · exact sync2
    · obtain ⟨b, -, twice⟩ := List.mem_flatMap.1 half
      rw [List.eq_of_mem_replicate twice]
      cases b with
      | false =>
        simp only [Signal.DataCursor.widthOf, Bool.false_eq_true, ↓reduceIte]
        omega
      | true =>
        simp only [Signal.DataCursor.widthOf, ↓reduceIte]
        omega
  omega

/-! ### Blocks -/

theorem calls_edgesOf (tolerant : r.timings.Tolerant)
    (silence : 2 * r.timings.onePulse.toNat ≤ r.silence) (fresh : r.edge? = none)
    (low : r.level = false) (poised : r.Poised) (long : 256 ≤ pilot)
    (few : r.piloted + pilot < 2 ^ 32) {payload : List UInt8}
    (near : List.Forall₂ Near widths (r.timings.widthsOf pilot payload)) (start : Nat) :
    r.calls (edgesOf start widths) = (List.replicate (widths.length + 1) none,
      turned { r with listening := .data none, bytes := payload.toArray, bits := [] }
        (not^[widths.length] true) (start + widths.sum)) := by
  have change : true ≠ r.level := by simp [low]
  have first := edge_first change fresh start
  have hears := hears_block poised (saves_of_near tolerant long few near)
  have through := calls_swings hears (short_of_near tolerant silence near) true start
  simp only [edgesOf, calls, Call.run, first, through, List.replicate_succ]

section Ending

variable (r : Recorder) (level : Bool) (tick : Nat)

theorem finish_turned : ((r.turned level tick).finish).1 = r.endBlock.1 := rfl

theorem quiet_turned {late : Nat} (silent : tick + r.silence < late) :
    ((r.turned level tick).quiet late).1 = r.endBlock.1 := by
  have passed : (r.turned level tick).silence < late - tick := Nat.lt_sub_iff_add_lt'.2 silent
  have ended : (r.turned level tick).quiet late = (r.turned level tick).endBlock := if_pos passed
  rw [ended]
  rfl

theorem edge_turned {gap : Nat} (silent : r.silence < gap) :
    ((r.turned level tick).edge (!level) (tick + gap)).1 = r.endBlock.1 := by
  have change : (!level) ≠ (r.turned level tick).level := by simp [turned]
  have passed : (r.turned level tick).silence < tick + gap - tick := by
    rwa [Nat.add_sub_cancel_left]
  obtain ⟨_, ended, -⟩ := edge_late change rfl passed
  rw [ended]
  rfl

end Ending

/-- A new recorder that is told of the pulses of a block, each of them off by no more than a
quarter of what the ROM makes it, ends no block as long as they last; of the pilot there may be as
many as it can count. What it gives then is just the bytes of the block: when it is told to finish,
or asked after the silence, or when an edge comes after the silence. -/
theorem recovers {start ticksPerSecond pilot : Nat} {payload : List UInt8} {widths : List Nat}
    (some : payload ≠ []) (long : 256 ≤ pilot) (few : pilot < 2 ^ 32)
    (near : List.Forall₂ Near widths (Timings.rom.widthsOf pilot payload)) :
    let r := new .rom ticksPerSecond
    let recovered := List.replicate (widths.length + 1) none ++ [Option.some payload.toArray]
    (r.calls (edgesOf start widths ++ [.finish])).1 = recovered ∧
      (∀ tick, start + widths.sum + r.silence < tick →
        (r.calls (edgesOf start widths ++ [.quiet tick])).1 = recovered) ∧
      ∀ gap, r.silence < gap → (r.calls (edgesOf start (widths ++ [gap]))).1 = recovered := by
  intro r recovered
  have silence : 2 * r.timings.onePulse.toNat ≤ r.silence := Nat.le_max_left _ _
  have poised : r.Poised := ⟨.inl rfl, rfl, rfl⟩
  have few : r.piloted + pilot < 2 ^ 32 := (Nat.zero_add pilot).symm ▸ few
  have told := calls_edgesOf Timings.rom_tolerant silence rfl rfl poised long few near start
  let held : Recorder :=
    { r with listening := .data none, bytes := payload.toArray, bits := [] }
  have ended : held.endBlock.1 = Option.some payload.toArray := by
    have filled : payload.toArray.isEmpty = false := by simpa using some
    simp only [endBlock, held, filled, Bool.false_eq_true, ↓reduceIte]
  -- Whatever is told last ends the block that is held.
  have last {call : Call}
      (ends : (call.run (held.turned (not^[widths.length] true) (start + widths.sum))).1 =
        Option.some payload.toArray) :
      (r.calls (edgesOf start widths ++ [call])).1 = recovered := by
    rw [calls_append, told]
    exact congrArg (List.replicate _ none ++ [·]) ends
  refine ⟨last ((finish_turned held _ _).trans ended), fun tick late => ?_, fun gap silent => ?_⟩
  · exact last ((quiet_turned held _ _ late).trans ended)
  · rw [edgesOf, swings_append]
    exact last ((edge_turned held _ _ silent).trans ended)

/-- The pulses of a pilot alternately as long and as short as they may be, a first sync pulse as
long and a second as short, and the halves of the bits just on their sides of a zero and a one. -/
theorem recovers_worn :
    let widths := (List.range 256).map (fun k => if k % 2 = 0 then 2710 else 1626) ++
      [833, 552] ++ [1283, 1283, 1068, 1068, 1283, 2137, 642, 1068] ++
      [642, 642, 2137, 1283, 1068, 1068, 1283, 1283]
    List.Forall₂ Near widths (Timings.rom.widthsOf 256 [0xA5]) ∧
      ((new .rom 3500000).calls (edgesOf 1000 widths ++ [.finish])).1 =
        List.replicate (widths.length + 1) none ++ [some #[0xA5]] ∧
      ((new .rom 3500000).calls (edgesOf 1000 (widths ++ [20000]))).1 =
        List.replicate (widths.length + 1) none ++ [some #[0xA5]] := by
  intro widths
  have near : List.Forall₂ Near widths (Timings.rom.widthsOf 256 [0xA5]) := by decide +kernel
  obtain ⟨finished, -, late⟩ := @recovers 1000 3500000 256 [0xA5] widths (List.cons_ne_nil 0xA5 [])
    (Nat.le_refl 256) (by decide) near
  exact ⟨near, finished, late 20000 (by decide)⟩

end Recorder

end Cassette
