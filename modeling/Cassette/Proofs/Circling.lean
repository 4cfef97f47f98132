import Mathlib.Logic.Function.Iterate
import Cassette.Proofs.Standstill

/-! Blocks in a circle. Where a player goes from a block that is over is decided by the cursor and
by the loop and the call that are open; level, head and time have no part in it (`Abreast.enter`).
So once the same cursor comes round with the same open loop and call, and no interval was met in
between, none will ever be. Main statement: `Passes.circle`. -/

namespace Cassette.Player

open Signal

variable {t : Tape} {x : Index} {p q r : Player} {m n : Nat}

/-! ### From block to block -/

def onto (t : Tape) (x : Index) (p : Player) : Player := (p.leave.enter t x).1

theorem passes_succ_iff : p.Passes t x (n + 1) ↔
    p.playing = true ∧ p.phase.next p.settings t.image = .ok none ∧
      (p.leave.enter t x).2 = .ok () ∧ (p.onto t x).Passes t x n := by
  constructor
  · intro passes
    cases passes with
    | next playing ended entered on =>
      rw [onto, entered]
      exact ⟨playing, ended, rfl, on⟩
  · rintro ⟨playing, ended, entered, on⟩
    exact .next playing ended (Prod.ext rfl entered) on

theorem passes_add :
    p.Passes t x (m + n) ↔ p.Passes t x m ∧ ((onto t x)^[m] p).Passes t x n := by
  induction m generalizing p with
  | zero => simp only [Nat.zero_add, Function.iterate_zero, id, Passes.here, true_and]
  | succ m ih =>
    rw [Nat.add_right_comm, passes_succ_iff, passes_succ_iff, ih, Function.iterate_succ_apply]
    simp only [and_assoc]

theorem Passes.of_le (passes : p.Passes t x n) (le : m ≤ n) : p.Passes t x m := by
  obtain ⟨k, rfl⟩ := Nat.exists_eq_add_of_le le
  exact (passes_add.1 passes).1

theorem leave_leave (p : Player) : p.leave.leave = p.leave := leave_of_idle leave_idle

theorem leave_playing (p : Player) : p.leave.playing = p.playing := by
  unfold leave
  split <;> rfl

/-- In front of a block no less is passed than at the end of the one before. -/
theorem Passes.leave (passes : p.Passes t x n) : p.leave.Passes t x n := by
  cases n with
  | zero => exact .here
  | succ n =>
    obtain ⟨playing, -, entered, on⟩ := passes_succ_iff.1 passes
    refine passes_succ_iff.2 ⟨(leave_playing p).trans playing, ?_, ?_, ?_⟩
    · rw [leave_idle]
      rfl
    · rwa [leave_leave]
    · rwa [onto, leave_leave]

/-! ### Players abreast -/

/-- Players with the cursor at one block and the same loop and call open. -/
structure Abreast (p q : Player) : Prop where
  settings : p.settings = q.settings
  start : p.start = q.start
  ordinal : p.ordinal = q.ordinal
  offset : p.offset = q.offset
  behind : p.phase ≠ .idle → p.behind = q.behind
  phase : p.phase = q.phase
  playing : p.playing = q.playing
  route : p.route = q.route

theorem Abreast.symm (abreast : p.Abreast q) : q.Abreast p :=
  ⟨abreast.settings.symm, abreast.start.symm, abreast.ordinal.symm, abreast.offset.symm,
    fun under => (abreast.behind (abreast.phase ▸ under)).symm, abreast.phase.symm,
    abreast.playing.symm, abreast.route.symm⟩

theorem Abreast.leave (abreast : p.Abreast q) : p.leave.Abreast q.leave := by
  by_cases idle : p.phase = .idle
  · rwa [leave_of_idle idle, leave_of_idle (abreast.phase ▸ idle)]
  · have behind := abreast.behind idle
    rw [leave_of_playing idle, leave_of_playing (abreast.phase ▸ idle)]
    exact ⟨abreast.settings, abreast.start, congrArg (· + 1) abreast.ordinal, behind,
      fun idle => absurd rfl idle, rfl, abreast.playing, abreast.route⟩

/-- Players abreast that have found the end of the block stay so, whatever else they remember. -/
theorem Abreast.haltAfter (abreast : p.Abreast q) (behind : p.behind = q.behind) (count : Nat) :
    (p.haltAfter count).Abreast (q.haltAfter count) := by
  unfold Player.haltAfter
  rw [abreast.ordinal]
  split
  · exact ⟨abreast.settings, abreast.start, rfl, behind, fun _ => behind, rfl, rfl, abreast.route⟩
  · exact ⟨abreast.settings, abreast.start, rfl, abreast.start, fun _ => behind, rfl, rfl, rfl⟩

theorem Abreast.runOut (abreast : p.Abreast q) : p.runOut.Abreast q.runOut :=
  ⟨abreast.settings, abreast.start, rfl, abreast.start, fun idle => absurd rfl idle, rfl, rfl, rfl⟩

theorem Abreast.follow (abreast : p.Abreast q) (behind : p.behind = q.behind) (turn : Turn) :
    (p.follow t x turn).1.Abreast (q.follow t x turn).1 ∧
      (p.follow t x turn).2 = (q.follow t x turn).2 := by
  have stays := abreast
  obtain ⟨settings, start, ordinal, offset, -, phase, playing, route⟩ := abreast
  cases turn with
  | next => exact ⟨⟨settings, start, ordinal, offset, fun _ => behind, rfl, playing, route⟩, rfl⟩
  | goTo target =>
    simp only [Player.follow]
    cases x.locate t target with
    | error fault =>
      exact ⟨⟨settings, start, ordinal, offset, fun _ => behind, phase, playing, route⟩, rfl⟩
    | ok found => exact ⟨⟨settings, start, rfl, rfl, fun _ => behind, rfl, playing, route⟩, rfl⟩
  | stop => exact ⟨stays.haltAfter behind x.count, rfl⟩
  | finish => exact ⟨stays.runOut, rfl⟩

/-- Players abreast in front of a block are abreast when they have entered it. -/
theorem Abreast.enter (abreast : p.Abreast q) :
    (p.enter t x).1.Abreast (q.enter t x).1 ∧ (p.enter t x).2 = (q.enter t x).2 := by
  have out := abreast.runOut
  obtain ⟨settings, start, ordinal, offset, behind, phase, level, remaining, playing, ranOut, route,
    head⟩ := p
  obtain ⟨_, _, _, _, behind', _, level', remaining', _, ranOut', _, head'⟩ := q
  obtain ⟨rfl, rfl, rfl, rfl, ends, rfl, rfl, rfl⟩ := abreast
  unfold Player.enter
  dsimp only
  split
  · exact ⟨out, rfl⟩
  split
  · exact ⟨⟨rfl, rfl, rfl, rfl, ends, rfl, rfl, rfl⟩, rfl⟩
  · exact ⟨⟨rfl, rfl, rfl, rfl, ends, rfl, rfl, rfl⟩, rfl⟩
  · next b _ =>
    split
    · exact ⟨⟨rfl, rfl, rfl, rfl, fun _ => rfl, rfl, rfl, rfl⟩, rfl⟩
    · exact ⟨⟨rfl, rfl, rfl, rfl, fun _ => rfl, rfl, rfl, rfl⟩, rfl⟩
    · refine ⟨Abreast.haltAfter ?_ ?_ x.count, rfl⟩
      · exact ⟨rfl, rfl, rfl, rfl, fun _ => rfl, rfl, rfl, rfl⟩
      · rfl
    · exact ⟨⟨rfl, rfl, rfl, rfl, fun _ => rfl, rfl, rfl, rfl⟩, rfl⟩
    · cases b
      all_goals
        refine Abreast.follow ?_ ?_ _
        · exact ⟨rfl, rfl, rfl, rfl, fun _ => rfl, rfl, rfl, rfl⟩
        · rfl

theorem Abreast.passes (abreast : p.Abreast q) (passes : p.Passes t x n) : q.Passes t x n := by
  induction n generalizing p q with
  | zero => exact .here
  | succ n ih =>
    obtain ⟨playing, ended, entered, on⟩ := passes_succ_iff.1 passes
    obtain ⟨stays, same⟩ := abreast.leave.enter (t := t) (x := x)
    rw [abreast.phase, abreast.settings] at ended
    exact passes_succ_iff.2 ⟨abreast.playing ▸ playing, ended, same ▸ entered, ih stays on⟩

theorem Abreast.passes_of_leave (abreast : p.leave.Abreast q.leave) (ready : q.Passes t x 1)
    (passes : p.Passes t x n) : q.Passes t x n := by
  cases n with
  | zero => exact .here
  | succ n =>
    obtain ⟨playing, ended, entered, -⟩ := passes_succ_iff.1 ready
    obtain ⟨-, -, -, on⟩ := passes_succ_iff.1 passes
    exact passes_succ_iff.2 ⟨playing, ended, entered, abreast.enter.1.passes on⟩

/-! ### Circles -/

/-- If a player that passes from block to block comes to where it has been, with the same loop and
call open, then it passes blocks for ever. -/
theorem Passes.circle {i j : Nat} (before : i < j) (passes : p.Passes t x (j + 1))
    (same : ((onto t x)^[i] p).leave.Abreast ((onto t x)^[j] p).leave) (n : Nat) :
    p.Passes t x n := by
  obtain ⟨k, rfl⟩ := Nat.exists_eq_add_of_lt before
  rw [Nat.add_assoc] at passes same
  obtain ⟨first, round⟩ := passes_add.1 (Nat.add_assoc i (k + 1) 1 ▸ passes)
  obtain ⟨once, ready⟩ := passes_add.1 round
  rw [Nat.add_comm, Function.iterate_add_apply] at same
  have again (n : Nat) : ((onto t x)^[i] p).Passes t x n := by
    induction n with
    | zero => exact .here
    | succ n ih =>
      have more := passes_add.2 ⟨once, same.passes_of_leave ready ih⟩
      exact more.of_le (by omega)
  exact (passes_add.2 ⟨first, again n⟩).of_le (Nat.le_add_left n i)

end Cassette.Player
