import Cassette.Proofs.Agreement
import Cassette.Proofs.Faltering
import Cassette.Proofs.Forgetting

/-! How far a tape is. The position of the cursor is where the next payload byte is, as long as a
payload is played, and else the start of the block. Where no block leads elsewhere, the cursor goes
from block to block and through each payload from front to back (`Player.Precedes`): a step lemma
for each interval that starts and each block that is entered, and run lemmas for a walk and a call
(`walk_moves`, `spend_moves`). The pause behind a payload is a part of the block without a cursor in
it, so there the position is that of the start of the block again, and a block that is over is left
at once where there is no pause (`Reachable.rests`). Main statement: `position_falls_iff`, nothing
else sets the position back while a tape plays. -/

namespace Cassette

/-- Blocks behind which the tape goes on with the next block, or halts in front of it. A loop that
is opened leads nowhere as long as no block closes it. -/
def Block.isStraight : Block → Bool
  | .tap _ => true
  | .tzx b =>
    match b.kind with
    | .jump _ | .loopEnd | .callSequence _ | .callReturn => false
    | _ => true

/-! ### Phases -/

namespace Signal

variable {s : Settings} {image : Image} {phase rest after : Phase} {i : Interval} {b : Block}

theorem BitCursor.position_le {c c' : BitCursor} {bit : Bool}
    (next : c.next image = .ok (some (bit, c'))) : c.position ≤ c'.position := by
  unfold BitCursor.next at next
  split at next
  · obtain ⟨-, rfl⟩ := Prod.mk.inj (Option.some.inj (Except.ok.inj next))
    exact Nat.le_refl _
  · split at next
    · exact nomatch next
    · obtain ⟨byte, -, next⟩ := bind_eq_ok_iff.1 next
      obtain ⟨-, rfl⟩ := Prod.mk.inj (Option.some.inj (Except.ok.inj next))
      exact Nat.add_le_add_left (Nat.le_succ _) _

theorem DataCursor.position_le {c c' : DataCursor} {width : Nat}
    (next : c.next image = .ok (some (width, c'))) : c.bits.position ≤ c'.bits.position := by
  unfold DataCursor.next at next
  split at next
  · obtain ⟨-, rfl⟩ := Prod.mk.inj (Option.some.inj (Except.ok.inj next))
    exact Nat.le_refl _
  · obtain ⟨found, first, next⟩ := bind_eq_ok_iff.1 next
    cases found with
    | none => exact nomatch next
    | some found =>
      obtain ⟨-, rfl⟩ := Prod.mk.inj (Option.some.inj (Except.ok.inj next))
      exact BitCursor.position_le first

theorem RunCursor.position_le {c c' : RunCursor} {ticksPerSecond ticks : Nat}
    (next : c.next image ticksPerSecond = .ok (some (ticks, c'))) : c.position ≤ c'.position := by
  unfold RunCursor.next at next
  split at next
  · exact nomatch next
  · obtain ⟨run, -, next⟩ := bind_eq_ok_iff.1 next
    obtain ⟨-, rfl⟩ := Prod.mk.inj (Option.some.inj (Except.ok.inj next))
    exact Nat.add_le_add_left (Nat.le_add_right _ _) _

theorem Phase.position_inside (within : phase.Within image b) {k : Nat}
    (here : phase.position? = some k) :
    ∃ data, b.payload? = some data ∧ data.offset ≤ k ∧ k ≤ data.stop := by
  cases phase with
  | pilot _ _ _ _ c | sync2 _ c | data c | samples c =>
    obtain rfl := Option.some.inj here
    exact ⟨_, within.1, Nat.le_add_right _ _, Nat.add_le_add_left within.2.read _⟩
  | runs c =>
    obtain ⟨⟨block, pauseMs, rate, stored, rfl, kind⟩, inside⟩ := within
    obtain rfl := Option.some.inj here
    have payload : block.kind.data? = some c.data := by
      rw [kind]
      rfl
    exact ⟨_, payload, Nat.le_add_right _ _, Nat.add_le_add_left inside.read.le _⟩
  | _ => exact nomatch here

/-- What a phase can become while its block is played: nothing is left but what needs no cursor, or
the cursor in the payload has not gone back. -/
def Phase.Precedes (phase rest : Phase) : Prop :=
  rest = .done ∨ phase ≠ .done ∧
    ∀ k, phase.position? = some k → ∃ k', rest.position? = some k' ∧ k ≤ k'

theorem Phase.Precedes.refl (phase : Phase) : phase.Precedes phase := by
  by_cases done : phase = .done
  · exact .inl done
  · exact .inr ⟨done, fun k here => ⟨k, here, Nat.le_refl k⟩⟩

theorem Phase.Precedes.trans (first : phase.Precedes rest) (second : rest.Precedes after) :
    phase.Precedes after := by
  rcases second with done | ⟨unfinished, second⟩
  · exact .inl done
  · obtain ⟨unfinished', first⟩ := first.resolve_left unfinished
    refine .inr ⟨unfinished', fun k here => ?_⟩
    obtain ⟨k', here', le⟩ := first k here
    obtain ⟨k'', there, le'⟩ := second k' here'
    exact ⟨k'', there, Nat.le_trans le le'⟩

theorem Phase.idle_precedes (phase : Phase) : Phase.idle.Precedes phase :=
  .inr ⟨nofun, fun _ here => nomatch here⟩

/-- What an interval that starts leaves of a block: the cursor in the payload has not gone back, or
the interval is the pause behind all of it. -/
inductive Phase.Starts (phase : Phase) : Interval → Phase → Prop
  | on {i : Interval} {rest : Phase} (unfinished : phase ≠ .done) (left : rest ≠ .done)
      (keeps : ∀ k, phase.position? = some k → ∃ k', rest.position? = some k' ∧ k ≤ k') :
      Starts phase i rest
  | pause {ticks : Nat} (waits : 0 < ticks) : Starts phase ⟨.set false, ticks⟩ .done

theorem takePause_starts {ticks : Nat} (taken : Phase.takePause ticks = some (i, rest)) :
    phase.Starts i rest := by
  unfold Phase.takePause at taken
  split at taken
  · exact nomatch taken
  · next waits =>
    obtain ⟨rfl, rfl⟩ := Prod.mk.inj (Option.some.inj taken)
    exact .pause (Nat.pos_of_ne_zero waits)

theorem Phase.next_starts (next : phase.next s image = .ok (some (i, rest))) :
    phase.Starts i rest := by
  have given {j : Interval} {on : Phase}
      (next : (.ok (some (j, on)) : Except Fault _) = .ok (some (i, rest)))
      (unfinished : phase ≠ .done) (left : on ≠ .done)
      (keeps : ∀ k, phase.position? = some k → ∃ k', on.position? = some k' ∧ k ≤ k') :
      phase.Starts i rest := by
    obtain ⟨-, rfl⟩ := Prod.mk.inj (Option.some.inj (Except.ok.inj next))
    exact .on unfinished left keeps
  cases phase with
  | idle | done => exact nomatch next
  | pilot _ left =>
    cases left <;> exact given next nofun nofun fun k here => ⟨k, here, Nat.le_refl k⟩
  | sync2 => exact given next nofun nofun fun k here => ⟨k, here, Nat.le_refl k⟩
  | tone _ left =>
    cases left with
    | zero => exact nomatch next
    | succ left => exact given next nofun nofun nofun
  | pulses widths =>
    cases widths with
    | nil => exact nomatch next
    | cons width widths => exact given next nofun nofun nofun
  | pause ticks => exact takePause_starts (Except.ok.inj next)
  | data c =>
    obtain ⟨found, first, next⟩ := bind_eq_ok_iff.1 next
    cases found with
    | none => exact takePause_starts (Except.ok.inj next)
    | some found =>
      refine given next nofun nofun fun k here => ⟨_, rfl, ?_⟩
      obtain rfl := Option.some.inj here
      exact DataCursor.position_le first
  | samples bits =>
    obtain ⟨found, first, next⟩ := bind_eq_ok_iff.1 next
    cases found with
    | none => exact takePause_starts (Except.ok.inj next)
    | some found =>
      refine given next nofun nofun fun k here => ⟨_, rfl, ?_⟩
      obtain rfl := Option.some.inj here
      exact BitCursor.position_le first
  | runs c =>
    obtain ⟨found, first, next⟩ := bind_eq_ok_iff.1 next
    cases found with
    | none => exact takePause_starts (Except.ok.inj next)
    | some found =>
      refine given next nofun nofun fun k here => ⟨_, rfl, ?_⟩
      obtain rfl := Option.some.inj here
      exact RunCursor.position_le first

theorem Phase.Starts.precedes (starts : phase.Starts i rest) : phase.Precedes rest := by
  cases starts with
  | on unfinished _ keeps => exact .inr ⟨unfinished, keeps⟩
  | pause => exact .inl rfl

end Signal

open Signal

namespace Player

variable {t : Tape} {x : Index} {s : Settings} {p q r : Player} {b : Block}
variable {fuel left ticks played k : Nat} {fault : Fault}

/-! ### Steps -/

/-- The cursor comes from one player to another by going on: to a later block, or in the same one
without going back in its payload. -/
def Precedes (p q : Player) : Prop :=
  p.ordinal < q.ordinal ∨ p.ordinal = q.ordinal ∧ p.phase.Precedes q.phase

theorem Precedes.refl (p : Player) : p.Precedes p := .inr ⟨rfl, .refl _⟩

theorem Precedes.le (precedes : p.Precedes q) : p.ordinal ≤ q.ordinal :=
  precedes.elim Nat.le_of_lt fun same => Nat.le_of_eq same.1

theorem Precedes.trans (first : p.Precedes q) (second : q.Precedes r) : p.Precedes r := by
  rcases first with later | ⟨same, phases⟩
  · exact .inl (Nat.lt_of_lt_of_le later second.le)
  · rcases second with later | ⟨same', phases'⟩
    · exact .inl (same ▸ later)
    · exact .inr ⟨same.trans same', phases.trans phases'⟩

/-- What the cursor does in a step that is answered: it goes on, the tape ends, or there is a fault
and the cursor is in front of the block that is to blame. -/
inductive Moves {α : Type} (p : Player) : Player × Except Fault α → Prop
  | onward {q : Player} {a : α} (precedes : p.Precedes q) : Moves p (q, .ok a)
  | ended {q : Player} {a : α} (ended : q.Ended) : Moves p (q, .ok a)
  | fault {q : Player} {fault : Fault} (le : p.ordinal ≤ q.ordinal) (idle : q.phase = .idle) :
      Moves p (q, .error fault)

theorem Precedes.moves {α : Type} {a : Player × Except Fault α} (precedes : p.Precedes q)
    (moves : q.Moves a) : p.Moves a := by
  cases moves with
  | onward on => exact .onward (precedes.trans on)
  | ended ended => exact .ended ended
  | fault le idle => exact .fault (Nat.le_trans precedes.le le) idle

theorem precedes_leave (p : Player) : p.Precedes p.leave := by
  by_cases idle : p.phase = .idle
  · rw [leave_of_idle idle]
    exact .refl p
  · rw [leave_of_playing idle]
    exact .inl (Nat.lt_succ_self _)

/-- Behind a block the tape halts in front of the next, or it ends. -/
theorem haltAfter_moves (p : Player) (count : Nat) :
    p.Moves (p.haltAfter count, (.ok () : Except Fault Unit)) := by
  unfold haltAfter
  split
  · exact .onward (.inl (Nat.lt_succ_self _))
  · exact .ended ⟨rfl, .inr rfl⟩

theorem turn_of_straight (straight : b.isStraight = true) (p : Player) (x : Index) :
    (p.turn x b).1 = .next ∨ (p.turn x b).1 = .stop := by
  cases b with
  | tap _ => exact .inl rfl
  | tzx c =>
    obtain ⟨offset, size, kind⟩ := c
    cases kind with
    | jump | loopEnd | callSequence | callReturn => exact nomatch straight
    | stopIf48K =>
      simp only [turn, Route.take]
      split
      · exact .inr rfl
      · exact .inl rfl
    | _ => exact .inl rfl

section Straight

variable (h : Indexed t x) (straight : ∀ b ∈ t.scan.blocks, b.isStraight = true)
include h straight

theorem enter_moves (standing : p.Standing t x) (idle : p.phase = .idle) :
    p.Moves (p.enter t x) := by
  -- In front of a block there is no cursor in a payload yet, so any phase of it will do.
  have here {q : Player} (same : q.ordinal = p.ordinal) : p.Precedes q :=
    .inr ⟨same.symm, idle ▸ Phase.idle_precedes q.phase⟩
  have halts {q : Player} (same : q.ordinal = p.ordinal) : p.Moves (q.haltAfter x.count, .ok ()) :=
    (here same).moves (haltAfter_moves q x.count)
  unfold enter
  split
  · exact .ended ⟨rfl, .inl rfl⟩
  · next inside =>
    obtain ⟨b, found, read, -⟩ := h.read (Nat.not_le.1 inside)
    rw [← standing.offset] at read
    simp only [read]
    split
    · exact .fault (Nat.le_refl _) idle
    · exact .onward (here rfl)
    · exact halts rfl
    · exact .onward (here rfl)
    · rcases turn_of_straight (straight b (Array.mem_of_getElem? found)) _ x with next | stop
      · rw [next]
        exact .onward (here rfl)
      · rw [stop]
        exact halts rfl

/-- A walk goes on from block to block. -/
theorem walk_moves (standing : p.Standing t x) (budget : Nat) : p.Moves (walk t x budget p) := by
  fun_induction walk t x budget p with
  | case1 budget p => exact .fault (Nat.le_refl _) rfl
  | case2 budget p playing i rest next =>
    exact .onward (.inr ⟨rfl, (Phase.next_starts next).precedes⟩)
  | case3 p => exact .fault (precedes_leave p).le leave_idle
  | case4 p playing ended budget q fault failed =>
    have entered := enter_moves h straight (standing.leave h) leave_idle
    rw [failed] at entered
    exact (precedes_leave p).moves entered
  | case5 p playing ended budget q went ih =>
    have entered := enter_moves h straight (standing.leave h) leave_idle
    have sound := enter_sound h (standing.leave h) leave_idle
    rw [went] at entered sound
    cases entered with
    | onward precedes => exact ((precedes_leave p).trans precedes).moves (ih sound.1)
    | ended done =>
      rw [walk_stopped (Bool.eq_false_iff.1 done.1)]
      exact .ended done
  | case6 budget p stopped => exact .onward (.refl p)

/-- A call goes on from edge to edge. -/
theorem spend_moves {a : Except Fault Nat} (standing : p.Standing t x)
    (spent : spend t x fuel p left = some (q, a)) : p.Moves (q, a) := by
  induction fuel generalizing p left with
  | zero => exact nomatch spent
  | succ fuel ih =>
    have paused := standing.paused 0 p.playing
    have walked' := walk_moves h straight paused walkLimit
    have sound := walk_sound h walkLimit paused
    cases spend_cases spent with
    | stopped => exact .onward (.refl q)
    | early => exact .onward (.inr ⟨rfl, .refl _⟩)
    | fault playing late walked =>
      rw [← startInterval, walked] at walked'
      cases walked' with
      | fault le idle => exact .fault le idle
    | edge playing late walked on =>
      rw [← startInterval, walked] at walked' sound
      cases walked' with
      | onward precedes => exact Precedes.moves (p := p) precedes (ih sound.1 on)
      | ended done =>
        cases fuel with
        | zero => simp [spend] at on
        | succ fuel =>
          rw [spend_stopped done.1] at on
          obtain ⟨rfl, rfl⟩ := Prod.mk.inj (Option.some.inj on)
          exact .ended done

theorem Elapses.moves {a : Except Fault Nat} (standing : p.Standing t x)
    (elapses : p.Elapses t x ticks q a) : p.Moves (q, a) := by
  obtain ⟨fuel, spare, spent, rfl⟩ := elapses_iff.1 elapses
  cases spend_moves h straight standing spent with
  | onward precedes => exact .onward precedes
  | ended done => exact .ended done
  | fault le idle => exact .fault le idle

end Straight

/-! ### Pauses -/

/-- Of the block under the cursor something is left, or its pause is: the level is low, and the
next edge is ahead. -/
def Rests (p : Player) : Prop := p.phase = .done → p.level = false ∧ 0 < p.remaining

theorem rests_of_idle (idle : p.phase = .idle) : p.Rests := fun done => nomatch idle.symm.trans done

theorem begin_rests {i : Interval} {rest : Phase} (starts : p.phase.Starts i rest) :
    (p.begin i rest).Rests := by
  intro done
  cases starts with
  | on _ left => exact absurd done left
  | pause waits => exact ⟨rfl, waits⟩

theorem follow_stopped {turn : Turn} {answer : Except Fault Unit} (playing : p.playing = true)
    (went : p.follow t x turn = (q, answer)) (stopped : q.playing = false) : q.phase = .idle := by
  cases turn with
  | next =>
    obtain ⟨rfl, -⟩ := Prod.mk.inj went
    cases playing.symm.trans stopped
  | goTo target =>
    simp only [follow] at went
    split at went <;> obtain ⟨rfl, -⟩ := Prod.mk.inj went <;>
      cases playing.symm.trans stopped
  | stop =>
    obtain ⟨rfl, -⟩ := Prod.mk.inj went
    exact haltAfter_phase _ _
  | finish =>
    obtain ⟨rfl, -⟩ := Prod.mk.inj went
    rfl

theorem enter_stopped (playing : p.playing = true) (entered : p.enter t x = (q, .ok ()))
    (stopped : q.playing = false) : q.phase = .idle := by
  unfold enter at entered
  split at entered
  · obtain ⟨rfl, -⟩ := Prod.mk.inj entered
    rfl
  split at entered
  · cases (Prod.mk.inj entered).2
  · cases (Prod.mk.inj entered).2
  · simp only at entered
    split at entered
    · cases (Prod.mk.inj entered).2
    · obtain ⟨rfl, -⟩ := Prod.mk.inj entered
      cases playing.symm.trans stopped
    · obtain ⟨rfl, -⟩ := Prod.mk.inj entered
      exact haltAfter_phase _ _
    · obtain ⟨rfl, -⟩ := Prod.mk.inj entered
      cases playing.symm.trans stopped
    · exact follow_stopped (by exact playing) entered stopped

/-- A walk that comes to the end of a block goes on, so it ends in no block that is over. -/
theorem walk_rests (rests : p.playing = false → p.Rests) (budget : Nat) :
    (walk t x budget p).1.Rests := by
  fun_induction walk t x budget p with
  | case1 budget p => exact rests_of_idle rfl
  | case2 budget p playing i rest next => exact begin_rests (Phase.next_starts next)
  | case3 p => exact rests_of_idle leave_idle
  | case4 p playing ended budget q fault failed =>
    obtain ⟨_, _, _, rfl⟩ := enter_refused failed
    exact rests_of_idle leave_idle
  | case5 p playing ended budget q went ih =>
    exact ih fun stopped =>
      rests_of_idle (enter_stopped ((leave_playing p).trans playing) went stopped)
  | case6 budget p stopped => exact rests (Bool.eq_false_iff.2 stopped)

theorem spend_rests {a : Except Fault Nat} (rests : p.Rests)
    (spent : spend t x fuel p left = some (q, a)) : q.Rests := by
  induction fuel generalizing p left with
  | zero => exact nomatch spent
  | succ fuel ih =>
    -- At an edge the pause that was left is used up, but the walk from there does not stay in it.
    have due {r : Player} {answer : Except Fault Unit} (playing : p.playing = true)
        (walked : { p with remaining := 0 }.startInterval t x = (r, answer)) : r.Rests := by
      have rests := walk_rests (t := t) (x := x) (p := { p with remaining := 0 })
        (fun stopped => nomatch playing.symm.trans stopped) walkLimit
      rwa [← startInterval, walked] at rests
    cases spend_cases spent with
    | stopped => exact rests
    | early _ early => exact fun done => ⟨(rests done).1, Nat.sub_pos_of_lt early⟩
    | fault playing _ walked =>
      have rests := due playing walked
      exact rests
    | edge playing _ walked on => exact ih (due playing walked) on

/-- A payload that is over without a pause behind it is left at once, whatever is done. -/
theorem Reachable.rests (reachable : Reachable t x s p) : p.Rests := by
  induction reachable with
  | new | rewind | seek => exact rests_of_idle rfl
  | play _ ih => exact ih
  | stop _ ih => exact ih
  | advance _ advanced ih =>
    obtain ⟨⟨q, a⟩, spent, same⟩ := Option.map_eq_some_iff.1 advanced
    obtain ⟨rfl, -⟩ := Prod.mk.inj same
    exact spend_rests ih spent

/-! ### Positions -/

theorem position_of_some (here : p.phase.position? = some k) : p.position = k := by
  rw [position, here]
  rfl

theorem Standing.position_of_none (standing : p.Standing t x) (none : p.phase.position? = none) :
    p.position = t.offsetAt p.ordinal := by
  rw [position, none]
  exact standing.offset

section Positions

variable (h : Indexed t x)
include h

/-- While a payload is played the position is inside the block, and not at its start. -/
theorem Standing.payload_between (standing : p.Standing t x) (here : p.phase.position? = some k) :
    t.offsetAt p.ordinal < k ∧ k ≤ t.offsetAt (p.ordinal + 1) := by
  have under : p.phase ≠ .idle := by
    intro idle
    rw [idle] at here
    exact nomatch here
  obtain ⟨b, found, within⟩ := standing.within under
  obtain ⟨-, read, next⟩ := h.read_of_found found
  obtain ⟨data, payload, front, back⟩ := Phase.position_inside within here
  obtain ⟨behind, stop⟩ := Tape.payload_of_blockAt? h.whole read payload
  refine ⟨Nat.lt_of_lt_of_le behind front, ?_⟩
  rw [next, ← stop]
  exact back

theorem Standing.position_between (standing : p.Standing t x) :
    t.offsetAt p.ordinal ≤ p.position ∧ p.position ≤ t.offsetAt (p.ordinal + 1) := by
  cases here : p.phase.position? with
  | none =>
    rw [standing.position_of_none here]
    exact ⟨Nat.le_refl _, h.offsetAt_mono (Nat.le_succ _)⟩
  | some k =>
    obtain ⟨front, back⟩ := standing.payload_between h here
    rw [position_of_some here]
    exact ⟨Nat.le_of_lt front, back⟩

/-- Of the blocks from the one under the cursor on, only this one starts in front of the position,
and only while its payload is played. -/
theorem Standing.start_lt_position_iff (standing : p.Standing t x) (le : p.ordinal ≤ k) :
    t.offsetAt k < p.position ↔ k = p.ordinal ∧ p.phase.position?.isSome := by
  rcases Nat.lt_or_eq_of_le le with later | rfl
  · have behind := Nat.le_trans (standing.position_between h).2 (h.offsetAt_mono later)
    exact ⟨fun falls => absurd falls (Nat.not_lt.2 behind),
      fun same => absurd same.1 (Nat.ne_of_gt later)⟩
  · cases here : p.phase.position? with
    | none =>
      rw [standing.position_of_none here]
      simp
    | some j =>
      rw [position_of_some here]
      simp [(standing.payload_between h here).1]

end Positions

/-- The payload that one player plays is over for the other, but the block is not: the pause behind
the payload is played. -/
def Lingers (p q : Player) : Prop :=
  q.ordinal = p.ordinal ∧ p.phase.position?.isSome ∧ q.phase = .done

/-- Going on sets the position back only in a pause, and there it does. -/
theorem Precedes.falls_iff (h : Indexed t x) (precedes : p.Precedes q) (standing : p.Standing t x)
    (standing' : q.Standing t x) : q.position < p.position ↔ p.Lingers q := by
  constructor
  · intro falls
    have front := Nat.lt_of_le_of_lt (standing'.position_between h).1 falls
    obtain ⟨same, payload⟩ := (standing.start_lt_position_iff h precedes.le).1 front
    refine ⟨same, payload, ?_⟩
    rcases precedes with later | ⟨-, done | ⟨-, on⟩⟩
    · exact absurd same (Nat.ne_of_gt later)
    · exact done
    · obtain ⟨k, here⟩ := Option.isSome_iff_exists.1 payload
      obtain ⟨k', there, le⟩ := on k here
      rw [position_of_some here, position_of_some there] at falls
      exact absurd falls (Nat.not_lt.2 le)
  · rintro ⟨same, payload, done⟩
    rw [standing'.position_of_none (congrArg Phase.position? done)]
    exact (standing.start_lt_position_iff h precedes.le).2 ⟨same, payload⟩

/-! ### Playing on -/

/-- A tape is played on: it is stopped and started at any time, and time passes without a fault and
without an end of the tape. -/
inductive PlaysOn (t : Tape) (x : Index) (p : Player) : Player → Prop
  | here : PlaysOn t x p p
  | play {q : Player} (on : PlaysOn t x p q) : PlaysOn t x p q.play
  | stop {q : Player} (on : PlaysOn t x p q) : PlaysOn t x p q.stop
  | advance {q r : Player} {ticks played : Nat} (on : PlaysOn t x p q)
      (elapses : q.Elapses t x ticks r (.ok played)) (goes : q.playing = true → ¬ r.Ended) :
      PlaysOn t x p r

theorem PlaysOn.reachable (on : p.PlaysOn t x q) (reachable : Reachable t x s p) :
    Reachable t x s q := by
  induction on with
  | here => exact reachable
  | play _ ih => exact ih.play
  | stop _ ih => exact ih.stop
  | advance _ elapses _ ih =>
    obtain ⟨fuel, advanced⟩ := elapses
    exact ih.advance advanced

/-- However long a tape is played on, the cursor is in step and has only gone on. -/
theorem PlaysOn.precedes (h : Indexed t x) (straight : ∀ b ∈ t.scan.blocks, b.isStraight = true)
    (on : p.PlaysOn t x q) (standing : p.Standing t x) : q.Standing t x ∧ p.Precedes q := by
  induction on with
  | here => exact ⟨standing, .refl p⟩
  | play _ ih => exact ⟨ih.1.play, ih.2⟩
  | stop _ ih => exact ⟨ih.1.paused _ _, ih.2⟩
  | @advance q r _ _ _ elapses goes ih =>
    obtain ⟨standing', precedes⟩ := ih
    obtain ⟨fuel, advanced⟩ := id elapses
    refine ⟨(advance_sound h standing' advanced).1, ?_⟩
    cases playing : q.playing with
    | false =>
      obtain ⟨rfl, -⟩ := elapses.unique (elapses_stopped playing _)
      exact precedes
    | true =>
      cases elapses.moves h straight standing' with
      | onward on => exact precedes.trans on
      | ended done => exact absurd done (goes playing)

/-- Behind the end of the tape the position is that of the first block. -/
theorem Reachable.position_ended (h : Indexed t x) (reachable : Reachable t x s p)
    (playing : p.playing = true) (elapses : p.Elapses t x ticks q (.ok played)) (ended : q.Ended) :
    q.position = t.start := by
  obtain ⟨fuel, advanced⟩ := elapses
  have clear := Settles.clear h reachable (.ends playing advanced ended)
  rw [position, clear.phase]
  exact clear.offset.trans h.offsetAt_zero

end Player

/-! ### Decks -/

namespace Deck

variable {s : Store} {d e : Deck} {i : Inserted} {x : Index}

/-- The tape is over: it has run off its end, or halted at block 0. -/
def Ended (d : Deck) : Prop := d.isPlaying = false ∧ (d.hasRunOut = true ∨ d.cursor = 0)

/-- The tape in a deck is played on: it is stopped and started at any time, and time passes without
a fault and without an end of the tape. -/
inductive PlaysOn (s : Store) (d : Deck) : Deck → Prop
  | here : PlaysOn s d d
  | play {e : Deck} (on : PlaysOn s d e) : PlaysOn s d e.play.1
  | stop {e : Deck} (on : PlaysOn s d e) : PlaysOn s d e.stop
  | advance {e f : Deck} {edges ticks played : Nat} (on : PlaysOn s d e)
      (advanced : e.advance s edges ticks = some (f, .ok played))
      (goes : e.isPlaying = true → ¬ f.Ended) : PlaysOn s d f

theorem PlaysOn.player (on : d.PlaysOn s e) (inserted : d.tape = some i) (agrees : i.Agrees s x) :
    ∃ player index, e.tape = some { i with player, index } ∧
      Inserted.Agrees s { i with player, index } x ∧ i.player.PlaysOn (i.tape s) x player := by
  induction on with
  | here => exact ⟨i.player, i.index, inserted, agrees, .here⟩
  | play _ ih =>
    obtain ⟨player, index, there, agrees', on⟩ := ih
    refine ⟨player.play, index, ?_, agrees'.played agrees'.standing.play, on.play⟩
    simp only [Deck.play, there, onPlayer, Option.map_some]
  | stop _ ih =>
    obtain ⟨player, index, there, agrees', on⟩ := ih
    refine ⟨player.stop, index, ?_, agrees'.played (agrees'.standing.paused _ _), on.stop⟩
    simp only [Deck.stop, there, onPlayer, Option.map_some]
  | @advance e f edges ticks played _ advanced goes ih =>
    obtain ⟨player, index, there, agrees', on⟩ := ih
    have plays : e.isPlaying = player.playing := by
      rw [isPlaying, there]
      rfl
    simp only [Deck.advance, there, agrees'.holds.indexed_eq] at advanced
    split at advanced
    · next playing =>
      obtain ⟨⟨player', answer⟩, moved, made⟩ := Option.map_eq_some_iff.1 advanced
      obtain ⟨rfl, rfl⟩ := Prod.mk.inj made
      have standing := (Player.advance_sound agrees'.indexed agrees'.standing moved).1
      refine ⟨player', some x, rfl, agrees'.cached.played standing, ?_⟩
      exact on.advance ⟨edges, moved⟩ fun _ => goes (plays.trans playing)
    · obtain ⟨rfl, -⟩ := Prod.mk.inj (Option.some.inj advanced)
      exact ⟨player, index, there, agrees', on⟩

end Deck

/-- On a tape on which no block leads elsewhere, the blocks come in order while it is played on,
with any stops. The position falls just where a payload is over and the pause behind it is played,
and then to the start of the block; a fault sets it to the start of the block that is to blame, and
the end of the tape to that of the first. A deck tells the same of the tape that is in it. -/
theorem position_falls_iff {t : Tape} {x : Index} (h : Indexed t x)
    (straight : ∀ b ∈ t.scan.blocks, b.isStraight = true) :
    (∀ s p q, Player.Reachable t x s p → p.PlaysOn t x q →
      p.ordinal ≤ q.ordinal ∧ (q.position < p.position ↔ p.Lingers q) ∧
      (p.Lingers q →
        q.position = t.offsetAt p.ordinal ∧ q.level = false ∧ 0 < q.remaining) ∧
      (∀ ticks r fault, q.Elapses t x ticks r (.error fault) →
        p.ordinal ≤ r.ordinal ∧ r.position = t.offsetAt r.ordinal) ∧
      ∀ ticks r played, q.playing = true → q.Elapses t x ticks r (.ok played) → r.Ended →
        r.position = t.start) ∧
    ∀ files d e i, Deck.Intact files d → d.tape = some i → i.tape files = t → d.PlaysOn files e →
      ∃ j, e.tape = some j ∧ d.progress = some (i.player.position, t.length) ∧
        e.progress = some (j.player.position, t.length) ∧
        (j.player.position < i.player.position ↔ i.player.Lingers j.player) := by
  refine ⟨fun s p q reachable on => ?_, fun files d e i intact inserted same on => ?_⟩
  · have standing := reachable.standing h
    obtain ⟨standing', precedes⟩ := on.precedes h straight standing
    refine ⟨precedes.le, precedes.falls_iff h standing standing', ?_, ?_, ?_⟩
    · rintro ⟨here, -, done⟩
      rw [standing'.position_of_none (congrArg Phase.position? done), here]
      exact ⟨rfl, (on.reachable reachable).rests done⟩
    · intro ticks r fault failed
      obtain ⟨fuel, advanced⟩ := id failed
      have stopped := (Player.advance_sound h standing' advanced).1
      cases failed.moves h straight standing' with
      | fault le idle =>
        have start := stopped.position_of_none (congrArg Phase.position? idle)
        exact ⟨Nat.le_trans precedes.le le, start⟩
    · intro ticks r played playing elapses ended
      exact (on.reachable reachable).position_ended h playing elapses ended
  · obtain ⟨y, agrees⟩ := intact.agrees i inserted
    subst same
    obtain rfl : y = x := Except.ok.inj (agrees.indexed.indexed.symm.trans h.indexed)
    obtain ⟨player, index, there, agrees', on⟩ := on.player inserted agrees
    obtain ⟨standing, precedes⟩ := on.precedes h straight agrees.standing
    refine ⟨_, there, ?_, ?_, precedes.falls_iff h agrees.standing standing⟩
    · rw [Deck.progress, inserted]
      rfl
    · rw [Deck.progress, there]
      rfl

/-- A bit and the pause behind it, a halt, and a tone: the position falls in the pause, and in the
tone it is further on than it was in the payload. A deck goes on into the first of two blocks. -/
theorem position_falls_pause :
    let t : Tape := ⟨.tzx, .ofBytes (Tzx.magic ++ #[1, 20, 0x14, 100, 0, 200, 0, 1, 1, 0, 1, 0, 0,
      0x80, 0x20, 0, 0, 0x12, 100, 0, 2, 0]), some (1, 20)⟩
    let x : Index := ⟨#[10], 3⟩
    let p : Player := { Player.new .standard 10 with
      behind := 22, phase := .data ⟨⟨⟨21, 1⟩, 1, 1, []⟩, 100, 200, some 200, 1⟩, level := true,
      remaining := 150, playing := true, head := 22 }
    let q : Player := { p with phase := .done, level := false, remaining := 3450 }
    let r : Player := { p with
      ordinal := 2, offset := 25, behind := 30, phase := .tone 100 1, remaining := 50, head := 30 }
    let deck := (Deck.new .standard).carrying Deck.twoBlocksTape
    let fresh := Player.new .standard 0
    let begun : Player := { fresh with
      behind := 3, phase := .pilot 2168 3222 667 735 ⟨⟨⟨2, 1⟩, 8, 0, []⟩, 855, 1710, none, 1000⟩,
      level := true, remaining := 2158, playing := true, head := 3 }
    Indexed t x ∧ (∀ b ∈ t.scan.blocks, b.isStraight = true) ∧ Player.Reachable t x .standard p ∧
      p.PlaysOn t x q ∧ p.Lingers q ∧ q.position < p.position ∧
      p.PlaysOn t x r ∧ ¬ p.Lingers r ∧ ¬ r.position < p.position ∧
      Deck.Intact Deck.twoBlocks (deck fresh) ∧ (deck fresh).PlaysOn Deck.twoBlocks (deck begun) ∧
      (deck begun).progress = some (begun.position, 6) ∧ ¬ begun.position < fresh.position := by
  intro t x p q r deck fresh begun
  have indexed : Indexed t x := ⟨rfl, by decide +kernel⟩
  have straight : ∀ b ∈ t.scan.blocks, b.isStraight = true := by decide +kernel
  have first : (Player.new .standard 10).play.advance t x 2 50 = some (p, .ok 50) := by
    decide +kernel
  have reachable : Player.Reachable t x .standard p := .advance (.play .new) first
  have pauses : p.advance t x 3 400 = some (q, .ok 400) := by decide +kernel
  have paused : p.PlaysOn t x q := .advance .here ⟨3, pauses⟩ fun _ => Player.not_ended rfl
  let halted : Player := { q with
    ordinal := 2, offset := 25, behind := 25, phase := .idle, remaining := 0, playing := false,
    head := 25 }
  have halts : q.advance t x 2 5000 = some (halted, .ok 3450) := by decide +kernel
  have sounds : halted.play.advance t x 2 50 = some (r, .ok 50) := by decide +kernel
  have unended : ¬ halted.Ended := fun ended =>
    ended.2.elim Bool.false_ne_true (Nat.succ_ne_zero 1)
  have resumed : p.PlaysOn t x r :=
    .advance (.play (.advance paused ⟨2, halts⟩ fun _ => unended)) ⟨2, sounds⟩
      fun _ => Player.not_ended rfl
  have lingers : p.Lingers q := ⟨rfl, rfl, rfl⟩
  have sounding : ¬ p.Lingers r := fun lingers => Nat.succ_ne_zero 1 lingers.1
  obtain ⟨falls, -⟩ := position_falls_iff indexed straight
  obtain ⟨-, pause, -⟩ := falls .standard p q reachable paused
  obtain ⟨-, tone, -⟩ := falls .standard p r reachable resumed
  -- The same of a deck, with another tape.
  have indexed' : Indexed (Deck.twoBlocksTape.tape Deck.twoBlocks) ⟨#[0], 2⟩ :=
    ⟨rfl, by decide +kernel⟩
  have intact : Deck.Intact Deck.twoBlocks (deck fresh) := by
    refine .next (.insert "a.tap") (.new Deck.twoBlocks .standard) trivial ?_
    rw [Deck.Op.run, Deck.insert_twoBlocks]
    rfl
  have moved : fresh.play.advance (Deck.twoBlocksTape.tape Deck.twoBlocks) ⟨#[0], 2⟩ 2 10 =
      some (begun, .ok 10) := by decide +kernel
  have advanced : (deck fresh.play).advance Deck.twoBlocks 2 10 = some (deck begun, .ok 10) := by
    rw [Deck.carrying_advance rfl rfl, moved]
    rfl
  have on : (deck fresh).PlaysOn Deck.twoBlocks (deck begun) :=
    .advance (.play .here) advanced fun _ ended => Bool.false_ne_true.symm ended.1
  obtain ⟨-, told⟩ := position_falls_iff indexed' (by decide +kernel)
  obtain ⟨_, there, -, progress, still⟩ := told _ _ _ _ intact rfl rfl on
  obtain rfl := Option.some.inj there
  exact ⟨indexed, straight, reachable, paused, lingers, pause.2 lingers, resumed, sounding,
    fun further => sounding (tone.1 further), intact, on, progress,
    fun back => Bool.false_ne_true (still.1 back).2.1⟩

/-- A bit and the pause behind it: in the pause the tape is said to be where the block starts. -/
theorem position_falls :
    let t : Tape := ⟨.tzx, .ofBytes (Tzx.magic ++ #[1, 20, 0x14, 100, 0, 200, 0, 1, 1, 0, 1, 0, 0,
      0x80]), some (1, 20)⟩
    let x : Index := ⟨#[10], 1⟩
    ∃ p q, Indexed t x ∧ (∀ b ∈ t.scan.blocks, b.isStraight = true) ∧
      Player.Reachable t x .standard p ∧ p.playing = true ∧ p.Elapses t x 400 q (.ok 400) ∧
      q.playing = true ∧ q.ranOut = false ∧ p.position = 22 ∧ q.position = 10 := by
  intro t x
  let p : Player := { Player.new .standard 10 with
    behind := 22, phase := .data ⟨⟨⟨21, 1⟩, 1, 1, []⟩, 100, 200, some 200, 1⟩, level := true,
    remaining := 150, playing := true, head := 22 }
  let q : Player := { p with phase := .done, level := false, remaining := 3450 }
  have begun : (Player.new .standard 10).play.advance t x 2 50 = some (p, .ok 50) := by
    decide +kernel
  have paused : p.advance t x 3 400 = some (q, .ok 400) := by decide +kernel
  exact ⟨p, q, ⟨rfl, by decide +kernel⟩, by decide +kernel, .advance (.play .new) begun, rfl,
    ⟨3, paused⟩, rfl, rfl, rfl, rfl⟩

end Cassette
