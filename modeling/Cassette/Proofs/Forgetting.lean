import Cassette.Proofs.Driving
import Cassette.Proofs.Duration

/-! What a player forgets. Once it has been moved to a block, or the tape has come to its end or has
halted behind its last block, nothing is open, under way or left of an interval any more
(`Player.Clear`): an invariant of the time that passes, kept by each block that is entered
(`enter_clear`), and so by a walk and a call. From there on the player is in step with one that was
never used, and only the level tells them apart, until it is set. Main statement: `play_forgets`. -/

namespace Cassette

namespace Signal

/-- Whatever the level was before, it is the same behind beats that are not all pulses. -/
theorem levelBehind_eq_or (level level' : Bool) (bs : List Beat) :
    levelBehind level bs = levelBehind level' bs ∨ ∀ b ∈ bs, b.isPulse = true := by
  induction bs generalizing level level' with
  | nil => exact .inr nofun
  | cons b bs ih =>
    rcases b with ⟨flip | set, ticks⟩ | set
    · exact (ih (!level) (!level')).imp_right fun pulses => List.forall_mem_cons.2 ⟨rfl, pulses⟩
    · exact .inl rfl
    · exact .inl rfl

end Signal

open Signal

namespace Player

variable {t : Tape} {x : Index} {s : Settings} {p q r : Player} {k budget fuel left : Nat}

/-! ### Players with nothing behind them -/

/-- In front of a block, with nothing open, nothing under way, and no interval begun. -/
structure Clear (t : Tape) (s : Settings) (k : Nat) (p : Player) : Prop where
  settings : p.settings = s
  start : p.start = t.start
  ordinal : p.ordinal = k
  offset : p.offset = t.offsetAt k
  phase : p.phase = .idle
  remaining : p.remaining = 0
  route : p.route = .fresh

theorem Clear.inStep (clear : p.Clear t s k) (clear' : q.Clear t s k) : p.play.InStep q.play where
  abreast :=
    ⟨clear.settings.trans clear'.settings.symm, clear.start.trans clear'.start.symm,
      clear.ordinal.trans clear'.ordinal.symm, clear.offset.trans clear'.offset.symm,
      fun under => absurd clear.phase under, clear.phase.trans clear'.phase.symm, rfl,
      clear.route.trans clear'.route.symm⟩
  remaining := clear.remaining.trans clear'.remaining.symm
  ranOut := rfl

theorem clear_seek (settings : p.settings = s) (start : p.start = t.start) (k : Nat) :
    (p.seek k (t.offsetAt k)).Clear t s k :=
  ⟨settings, start, rfl, rfl, rfl, rfl, rfl⟩

theorem clear_rewind (h : Indexed t x) (settings : p.settings = s) (start : p.start = t.start) :
    p.rewind.Clear t s 0 :=
  ⟨settings, start, rfl, start.trans h.offsetAt_zero.symm, rfl, rfl, rfl⟩

theorem clear_runOut (h : Indexed t x) (settings : p.settings = s) (start : p.start = t.start) :
    p.runOut.Clear t s 0 :=
  ⟨settings, start, rfl, start.trans h.offsetAt_zero.symm, rfl, rfl, rfl⟩

/-! ### The end of the tape -/

theorem not_ended (playing : p.playing = true) : ¬ p.Ended :=
  fun ended => absurd (ended.1.symm.trans playing) Bool.false_ne_true

section Enter

variable (h : Indexed t x) (settings : p.settings = s) (start : p.start = t.start)
  (due : p.remaining = 0) (running : p.ranOut = false)
include h settings start due running

theorem haltAfter_clear {count : Nat} (ended : (p.haltAfter count).Ended) :
    (p.haltAfter count).Clear t s 0 := by
  obtain ⟨-, reason⟩ := ended
  unfold haltAfter at reason ⊢
  split at reason
  · rcases reason with out | zero
    · exact absurd (running.symm.trans out) Bool.false_ne_true
    · exact absurd zero (Nat.succ_ne_zero _)
  · next last =>
    rw [if_neg last]
    exact ⟨settings, start, rfl, start.trans h.offsetAt_zero.symm, rfl, due, rfl⟩

variable (playing : p.playing = true)
include playing

theorem follow_clear {turn : Turn} (ended : (p.follow t x turn).1.Ended) :
    (p.follow t x turn).1.Clear t s 0 := by
  cases turn with
  | next => exact absurd ended (not_ended playing)
  | goTo target =>
    have plays : (p.follow t x (.goTo target)).1.playing = true := by
      rw [follow]
      cases x.locate t target <;> exact playing
    exact absurd ended (not_ended plays)
  | stop => exact haltAfter_clear h settings start due running ended
  | finish => exact clear_runOut h settings start

/-- Where a block ends the tape, nothing is left of it. -/
theorem enter_clear : (p.enter t x).1.Ended → (p.enter t x).1.Clear t s 0 := by
  have plays {q : Player} (same : q.playing = p.playing) (ended : q.Ended) : q.Clear t s 0 :=
    absurd ended (not_ended (same.trans playing))
  unfold enter
  split
  · exact fun _ => clear_runOut h settings start
  split
  · exact plays rfl
  · exact plays rfl
  · next b _ =>
    simp only
    split
    · exact plays rfl
    · exact plays rfl
    · refine haltAfter_clear h ?_ ?_ ?_ ?_ <;> assumption
    · exact plays rfl
    · refine follow_clear h ?_ ?_ ?_ ?_ ?_ <;> assumption

end Enter

/-! ### Time that passes -/

theorem walk_clear (h : Indexed t x) (routed : p.Routed t x s) (due : p.remaining = 0)
    (rested : p.Rested) (clear : p.Ended → p.Clear t s 0)
    (walked : walk t x budget p = (q, .ok ())) (ended : q.Ended) : q.Clear t s 0 := by
  fun_induction walk t x budget p with
  | case1 | case3 | case4 => cases walked
  | case2 budget p playing i rest =>
    obtain ⟨rfl, -⟩ := Prod.mk.inj walked
    exact absurd ended (not_ended playing)
  | case5 p playing _ budget r went ih =>
    have left := routed.leave h
    have plays : p.leave.playing = true := (leave_playing p).trans playing
    have running : p.leave.ranOut = false := by
      rw [leave_ranOut, Bool.eq_false_iff]
      exact fun out => absurd ((rested out).symm.trans playing) Bool.false_ne_true
    have on := routed.enter h
    have due' : (p.leave.enter t x).1.remaining = 0 := enter_due (leave_due due)
    have rested' : (p.leave.enter t x).1.Rested := enter_rested (leave_rested rested)
    have clear' := enter_clear h left.framed.settings left.standing.start (leave_due due) running
      plays
    rw [went] at on due' rested' clear'
    exact ih on due' rested' clear' walked
  | case6 =>
    obtain ⟨rfl, -⟩ := Prod.mk.inj walked
    exact clear ended

theorem spend_clear (h : Indexed t x) (routed : p.Routed t x s) (rested : p.Rested)
    (clear : p.Ended → p.Clear t s 0) (spent : spend t x fuel p left = some (q, .ok k))
    (ended : q.Ended) : q.Clear t s 0 := by
  induction fuel generalizing p left with
  | zero => exact nomatch spent
  | succ fuel ih =>
    -- A player that plays has not ended, so what ended it is the last walk.
    cases spend_cases spent with
    | stopped => exact clear ended
    | early playing => exact absurd ended (not_ended playing)
    | @edge r _ _ playing late walked on =>
      have paused := routed.paused 0 p.playing
      have rested' : (walk t x walkLimit { p with remaining := 0 }).1.Rested := walk_rested rested
      have routed' := walk_routed h paused walkLimit
      have clear' : r.Ended → r.Clear t s 0 :=
        walk_clear h paused rfl rested (fun ended => absurd ended (not_ended playing)) walked
      rw [← startInterval, walked] at routed' rested'
      exact ih routed' rested' clear' on

theorem Reachable.rested (reachable : Reachable t x s p) : p.Rested := by
  induction reachable with
  | new => exact nofun
  | play _ _ => exact nofun
  | stop _ _ | rewind _ _ | seek _ _ _ => exact fun _ => rfl
  | advance _ advanced ih =>
    obtain ⟨_, spent, -⟩ := advance_eq_some_iff.1 advanced
    exact spend_rested ih spent

/-! ### New beginnings -/

/-- The player is moved to a block; or the tape it plays runs off its end, or halts behind the last
block, and so leaves it at the first. -/
inductive Settles (t : Tape) (x : Index) (p : Player) : (ordinal : Nat) → Player → Prop
  | seek {ordinal : Nat} (inside : ordinal < x.count) :
      Settles t x p ordinal (p.seek ordinal (t.offsetAt ordinal))
  | rewind : Settles t x p 0 p.rewind
  | ends {q : Player} {fuel ticks played : Nat} (playing : p.playing = true)
      (advanced : p.advance t x fuel ticks = some (q, .ok played)) (ended : q.Ended) :
      Settles t x p 0 q

theorem Settles.clear (h : Indexed t x) (reachable : Reachable t x s p)
    (settles : p.Settles t x k q) : q.Clear t s k := by
  have routed := reachable.routed h
  have settings := routed.framed.settings
  have start := routed.standing.start
  cases settles with
  | seek inside => exact clear_seek settings start k
  | rewind => exact clear_rewind h settings start
  | ends playing advanced ended =>
    obtain ⟨left, spent, answer⟩ := advance_eq_some_iff.1 advanced
    cases left with
    | error fault => exact nomatch answer
    | ok left =>
      exact spend_clear h routed reachable.rested (fun ended => absurd ended (not_ended playing))
        spent ended

/-- Players in step, driven in the same way, have the same level as soon as one beat is not a
pulse. -/
theorem InStep.drives_level (inStep : p.InStep q) {clock : Nat} {acts : List Act}
    {answers : List (Except Fault Nat)} {beats : List (Nat × Beat)} {p' : Player}
    (drives : p.Drives t x clock acts answers beats p') :
    ∃ q', q.Drives t x clock acts answers beats q' ∧ p'.InStep q' ∧
      (p'.level = q'.level ∨ ∀ b ∈ beats, b.2.isPulse = true) := by
  obtain ⟨q', drives', stays⟩ := inStep.drives drives
  refine ⟨q', drives', stays, ?_⟩
  rw [drives.level, drives'.level]
  refine (levelBehind_eq_or _ _ _).imp_right fun pulses b member => ?_
  exact pulses b.2 (List.mem_map_of_mem member)

/-- Whatever a player has been through, when it has been moved to a block, or the tape has come to
its end or halted behind its last block, it is played from there on as by a player that was never
used: told the same, both give the same answers, start the same intervals at the same times, and
are at the same point of the tape. Only the level may be another, and as soon as anything but a
pulse has set it, it is the same. -/
theorem play_forgets (h : Indexed t x) (reachable : Reachable t x s p)
    (settles : p.Settles t x k q) :
    let fresh := (new s t.start).seek k (t.offsetAt k)
    (k = 0 → fresh = new s t.start) ∧ q.play.InStep fresh.play ∧
    ∀ clock acts answers beats,
      (∀ q', q.play.Drives t x clock acts answers beats q' →
        ∃ r, fresh.play.Drives t x clock acts answers beats r ∧ q'.InStep r ∧
          (q'.level = r.level ∨ ∀ b ∈ beats, b.2.isPulse = true)) ∧
      ∀ r, fresh.play.Drives t x clock acts answers beats r →
        ∃ q', q.play.Drives t x clock acts answers beats q' ∧ r.InStep q' ∧
          (r.level = q'.level ∨ ∀ b ∈ beats, b.2.isPulse = true) := by
  intro fresh
  have inStep := (settles.clear h reachable).inStep (clear_seek (p := new s t.start) rfl rfl k)
  refine ⟨?_, inStep, fun clock acts answers beats => ⟨?_, ?_⟩⟩
  · rintro rfl
    show (new s t.start).seek 0 (t.offsetAt 0) = _
    rw [h.offsetAt_zero]
    rfl
  · exact fun q' drives => inStep.drives_level drives
  · exact fun r drives => inStep.symm.drives_level drives

/-- A loop is opened, a pulse sounds, and the tape halts behind its last block with the loop still
open. The second time the same is heard, only upside down. -/
theorem play_forgets_loop :
    let t : Tape := ⟨.tzx, .ofBytes (Tzx.magic ++ #[1, 20, 0x24, 2, 0, 0x12, 100, 0, 1, 0, 0x20, 0,
      0]), some (1, 20)⟩
    let x : Index := ⟨#[10], 3⟩
    let p := (new .standard 10).play
    let q := { new .standard 10 with behind := 21, level := true, head := 21 }
    let beats := [(0, Beat.start (pulse 100))]
    Indexed t x ∧ Reachable t x .standard p ∧ p.Settles t x 0 q ∧
      p.Drives t x 0 [.advance 150] [.ok 100] beats q ∧
      ∃ r, q.play.Drives t x 0 [.advance 150] [.ok 100] beats r ∧ q.InStep r := by
  intro t x p q beats
  have indexed : Indexed t x := ⟨rfl, by decide +kernel⟩
  have reachable : Reachable t x .standard p := .play .new
  have advanced : p.advance t x 3 150 = some (q, .ok 100) := by decide +kernel
  have settles : p.Settles t x 0 q := .ends rfl advanced ⟨rfl, .inr rfl⟩
  have heard : spendBeats t x 3 p 0 150 ++ [] = beats := by decide +kernel
  have first : p.Drives t x 0 [.advance 150] [.ok 100] beats q := heard ▸ .advance advanced .done
  obtain ⟨unused, -, same⟩ := play_forgets indexed reachable settles
  rw [unused rfl] at same
  obtain ⟨r, second, stays, -⟩ := (same 0 _ _ _).2 q first
  exact ⟨indexed, reachable, settles, first, r, second, stays⟩

end Player

end Cassette
