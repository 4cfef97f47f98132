import Cassette.Proofs.Tracing

/-! Two players driven in the same way. Players are in step if they differ in nothing but the level
and what reading has left behind (`Player.InStep`). Whatever is then done to both, they answer the
same, do the same to the line at the same ticks, and stay in step: a step lemma for each thing that
a player does, a run lemma for the time that passes in a call (`InStep.spend`), and one for all that
a player can be told (`Player.Drives`). Main statement: `InStep.drives`. -/

namespace Cassette

namespace Signal

/-- What a beat makes of the level. -/
def Beat.apply : Beat → Bool → Bool
  | .start i, level => i.swing.apply level
  | .set level, _ => level

/-- Pulses invert the level; all other beats set it. -/
def Beat.isPulse : Beat → Bool
  | .start ⟨.flip, _⟩ => true
  | _ => false

theorem levelBehind_cons (level : Bool) (b : Beat) (bs : List Beat) :
    levelBehind level (b :: bs) = levelBehind (b.apply level) bs := by
  cases b <;> rfl

end Signal

open Signal

namespace Player

variable {t : Tape} {x : Index} {s : Settings} {p q p' q' : Player} {budget fuel clock left : Nat}

/-! ### What is done to the line -/

def entryBeats (t : Tape) (x : Index) (p : Player) : List Beat :=
  if x.count ≤ p.ordinal then []
  else
    match t.blockAt? p.offset with
    | .ok (some b) =>
      match Entry.ofBlock p.settings t.image b with
      | .ok (.setLevel level) => [.set level]
      | _ => []
    | _ => []

def walkBeats (t : Tape) (x : Index) : (budget : Nat) → Player → List Beat
  | budget, p =>
    if p.playing then
      match p.phase.next p.settings t.image with
      | .error _ => []
      | .ok (some (i, _)) => [.start i]
      | .ok none =>
        match budget with
        | 0 => []
        | budget + 1 =>
          p.leave.entryBeats t x ++
            match p.leave.enter t x with
            | (_, .error _) => []
            | (q, .ok ()) => walkBeats t x budget q
    else []

section Walk

theorem walk_stopped (stopped : p.playing ≠ true) : walk t x budget p = (p, .ok ()) := by
  unfold walk
  exact if_neg stopped

theorem walkBeats_stopped (stopped : p.playing ≠ true) : walkBeats t x budget p = [] := by
  unfold walkBeats
  exact if_neg stopped

variable (playing : p.playing = true)
include playing

theorem walk_fault {fault : Fault} (failed : p.phase.next p.settings t.image = .error fault) :
    walk t x budget p = (p.abandon t.length, .error fault) := by
  unfold walk
  rw [if_pos playing, failed]

theorem walkBeats_fault {fault : Fault} (failed : p.phase.next p.settings t.image = .error fault) :
    walkBeats t x budget p = [] := by
  unfold walkBeats
  rw [if_pos playing, failed]

variable {i : Interval} {rest : Phase}

theorem walk_start (next : p.phase.next p.settings t.image = .ok (some (i, rest))) :
    walk t x budget p = (p.begin i rest, .ok ()) := by
  unfold walk
  rw [if_pos playing, next]

theorem walkBeats_start (next : p.phase.next p.settings t.image = .ok (some (i, rest))) :
    walkBeats t x budget p = [.start i] := by
  unfold walkBeats
  rw [if_pos playing, next]

variable (ended : p.phase.next p.settings t.image = .ok none)
include ended

theorem walk_spent : walk t x 0 p = (p.leave, .error (.endlessWalk p.leave.ordinal)) := by
  rw [walk, if_pos playing, ended]

theorem walkBeats_spent : walkBeats t x 0 p = [] := by
  rw [walkBeats, if_pos playing, ended]

theorem walk_refused {fault : Fault} (failed : p.leave.enter t x = (q, .error fault)) :
    walk t x (budget + 1) p = (q, .error fault) := by
  rw [walk, if_pos playing, ended]
  simp only [failed]

theorem walkBeats_refused {fault : Fault} (failed : p.leave.enter t x = (q, .error fault)) :
    walkBeats t x (budget + 1) p = p.leave.entryBeats t x := by
  rw [walkBeats, if_pos playing, ended]
  simp only [failed, List.append_nil]

theorem walk_enter (went : p.leave.enter t x = (q, .ok ())) :
    walk t x (budget + 1) p = walk t x budget q := by
  rw [walk, if_pos playing, ended]
  simp only [went]

theorem walkBeats_enter (went : p.leave.enter t x = (q, .ok ())) :
    walkBeats t x (budget + 1) p = p.leave.entryBeats t x ++ walkBeats t x budget q := by
  rw [walkBeats, if_pos playing, ended]
  simp only [went]

end Walk

/-- What is done to the line while `left` ticks pass, and when by a clock. -/
def spendBeats (t : Tape) (x : Index) : (fuel : Nat) → Player → (clock left : Nat) →
    List (Nat × Beat)
  | 0, _, _, _ => []
  | fuel + 1, p, clock, left =>
    if p.playing then
      if left < p.remaining then []
      else
        (walkBeats t x walkLimit { p with remaining := 0 }).map (clock + p.remaining, ·) ++
          match { p with remaining := 0 }.startInterval t x with
          | (_, .error _) => []
          | (q, .ok ()) => spendBeats t x fuel q (clock + p.remaining) (left - p.remaining)
    else []

theorem spendBeats_stopped (stopped : p.playing = false) :
    spendBeats t x (fuel + 1) p clock left = [] := by
  rw [spendBeats, stopped]
  rfl

theorem spendBeats_early (early : left < p.remaining) :
    spendBeats t x (fuel + 1) p clock left = [] := by
  rw [spendBeats, if_pos early, ite_self]

theorem spendBeats_late (playing : p.playing = true) (late : p.remaining ≤ left) :
    spendBeats t x (fuel + 1) p clock left =
      (walkBeats t x walkLimit { p with remaining := 0 }).map (clock + p.remaining, ·) ++
        match { p with remaining := 0 }.startInterval t x with
        | (_, .error _) => []
        | (q, .ok ()) => spendBeats t x fuel q (clock + p.remaining) (left - p.remaining) := by
  rw [spendBeats, if_pos playing, if_neg (Nat.not_lt.2 late)]

/-! ### The level -/

theorem leave_level (p : Player) : p.leave.level = p.level := by
  unfold leave
  split <;> rfl

theorem haltAfter_phase (p : Player) (count : Nat) : (p.haltAfter count).phase = .idle := by
  unfold haltAfter
  split <;> rfl

theorem haltAfter_level (p : Player) (count : Nat) : (p.haltAfter count).level = p.level := by
  unfold haltAfter
  split <;> rfl

theorem follow_level (p : Player) (turn : Turn) : (p.follow t x turn).1.level = p.level := by
  cases turn with
  | goTo ordinal =>
    simp only [follow]
    split <;> rfl
  | stop => exact haltAfter_level p _
  | next | finish => rfl

theorem enter_level (p : Player) :
    (p.enter t x).1.level = levelBehind p.level (p.entryBeats t x) := by
  unfold enter entryBeats
  split
  · rfl
  · cases t.blockAt? p.offset with
    | error fault => rfl
    | ok found =>
      cases found with
      | none => rfl
      | some b =>
        simp only
        cases Entry.ofBlock p.settings t.image b with
        | error fault => rfl
        | ok entry =>
          cases entry with
          | signal phase => rfl
          | halt => exact haltAfter_level _ _
          | setLevel level => rfl
          | route => exact follow_level _ _

theorem walk_level (p : Player) (budget : Nat) :
    (walk t x budget p).1.level = levelBehind p.level (walkBeats t x budget p) := by
  fun_induction walk t x budget p with
  | case1 budget p playing fault failed =>
    rw [walkBeats_fault playing failed]
    rfl
  | case2 budget p playing i rest next =>
    rw [walkBeats_start playing next]
    rfl
  | case3 p playing ended =>
    rw [walkBeats_spent playing ended]
    exact leave_level p
  | case4 p playing ended budget q fault failed =>
    have entered := enter_level (t := t) (x := x) p.leave
    rw [failed, leave_level] at entered
    rw [walkBeats_refused playing ended failed]
    exact entered
  | case5 p playing ended budget q went ih =>
    have entered := enter_level (t := t) (x := x) p.leave
    rw [went, leave_level] at entered
    rw [walkBeats_enter playing ended went, ih, levelBehind_append, ← entered]
  | case6 budget p stopped =>
    rw [walkBeats_stopped stopped]
    rfl

/-- While time passes the level changes by what is done to the line. -/
theorem spend_level {r : Except Fault Nat} (spent : spend t x fuel p left = some (q, r))
    (clock : Nat) :
    q.level = levelBehind p.level ((spendBeats t x fuel p clock left).map Prod.snd) := by
  induction fuel generalizing p left clock with
  | zero => exact nomatch spent
  | succ fuel ih =>
    have walked := walk_level (t := t) (x := x) { p with remaining := 0 } walkLimit
    have beats : Prod.snd ∘ (clock + p.remaining, ·) = (id : Beat → Beat) := rfl
    cases spend_cases spent with
    | stopped stopped =>
      rw [spendBeats_stopped stopped]
      rfl
    | early playing early =>
      rw [spendBeats_early early]
      rfl
    | fault playing late failed =>
      rw [← startInterval, failed] at walked
      rw [spendBeats_late playing late, failed, List.append_nil, List.map_map, beats, List.map_id]
      exact walked
    | edge playing late went on =>
      rw [← startInterval, went] at walked
      rw [spendBeats_late playing late, went, List.map_append, List.map_map, beats, List.map_id,
        levelBehind_append, ← walked]
      exact ih on _

/-! ### In step -/

/-- Players that differ in nothing but the level and what reading has left behind. -/
structure InStep (p q : Player) : Prop where
  abreast : p.Abreast q
  remaining : p.remaining = q.remaining
  ranOut : p.ranOut = q.ranOut

theorem InStep.symm (inStep : p.InStep q) : q.InStep p :=
  ⟨inStep.abreast.symm, inStep.remaining.symm, inStep.ranOut.symm⟩

theorem InStep.play (inStep : p.InStep q) : p.play.InStep q.play :=
  have ⟨⟨settings, start, ordinal, offset, behind, phase, _, route⟩, remaining, _⟩ := inStep
  ⟨⟨settings, start, ordinal, offset, behind, phase, rfl, route⟩, remaining, rfl⟩

theorem InStep.stop (inStep : p.InStep q) : p.stop.InStep q.stop :=
  have ⟨⟨settings, start, ordinal, offset, behind, phase, _, route⟩, remaining, ranOut⟩ := inStep
  ⟨⟨settings, start, ordinal, offset, behind, phase, rfl, route⟩, remaining, ranOut⟩

theorem InStep.seek (inStep : p.InStep q) (ordinal offset : Nat) :
    (p.seek ordinal offset).InStep (q.seek ordinal offset) :=
  ⟨⟨inStep.abreast.settings, inStep.abreast.start, rfl, rfl, fun _ => rfl, rfl, rfl, rfl⟩, rfl,
    inStep.ranOut⟩

theorem InStep.rewind (inStep : p.InStep q) : p.rewind.InStep q.rewind := by
  unfold Player.rewind
  rw [inStep.abreast.start]
  exact inStep.seek 0 q.start

theorem InStep.rest (inStep : p.InStep q) (remaining : Nat) :
    InStep { p with remaining } { q with remaining } :=
  have ⟨⟨settings, start, ordinal, offset, behind, phase, playing, route⟩, _, ranOut⟩ := inStep
  ⟨⟨settings, start, ordinal, offset, behind, phase, playing, route⟩, rfl, ranOut⟩

theorem InStep.begin (inStep : p.InStep q) (under : p.phase ≠ .idle) (i : Interval) (rest : Phase) :
    (p.begin i rest).InStep (q.begin i rest) :=
  have ⟨⟨settings, start, ordinal, offset, behind, _, playing, route⟩, _, ranOut⟩ := inStep
  ⟨⟨settings, start, ordinal, offset, fun _ => behind under, rfl, playing, route⟩, rfl, ranOut⟩

theorem InStep.abandon (inStep : p.InStep q) (length : Nat) :
    (p.abandon length).InStep (q.abandon length) :=
  have ⟨⟨settings, start, ordinal, offset, _, _, playing, route⟩, remaining, ranOut⟩ := inStep
  ⟨⟨settings, start, ordinal, offset, fun idle => absurd rfl idle, rfl, playing, route⟩, remaining,
    ranOut⟩

theorem leave_remaining (p : Player) : p.leave.remaining = p.remaining := by
  unfold Player.leave
  split <;> rfl

theorem leave_ranOut (p : Player) : p.leave.ranOut = p.ranOut := by
  unfold Player.leave
  split <;> rfl

theorem InStep.leave (inStep : p.InStep q) : p.leave.InStep q.leave where
  abreast := inStep.abreast.leave
  remaining := by rw [leave_remaining, leave_remaining, inStep.remaining]
  ranOut := by rw [leave_ranOut, leave_ranOut, inStep.ranOut]

/-! ### Entering blocks -/

theorem haltAfter_ranOut (p : Player) (count : Nat) : (p.haltAfter count).ranOut = p.ranOut := by
  unfold haltAfter
  split <;> rfl

theorem follow_ranOut (p : Player) (turn : Turn) :
    (p.follow t x turn).1.ranOut = (p.ranOut || turn == .finish) := by
  cases turn with
  | next => exact (Bool.or_false _).symm
  | goTo ordinal =>
    simp only [follow]
    split <;> exact (Bool.or_false _).symm
  | stop => exact (haltAfter_ranOut p _).trans (Bool.or_false _).symm
  | finish => exact (Bool.or_true _).symm

theorem InStep.enter_ranOut (inStep : p.InStep q) :
    (p.enter t x).1.ranOut = (q.enter t x).1.ranOut := by
  have ⟨abreast, _, same⟩ := inStep
  unfold Player.enter
  rw [abreast.ordinal, abreast.offset, abreast.settings]
  split
  · rfl
  split
  · exact same
  · exact same
  · next b _ =>
    simp only
    split
    · exact same
    · exact same
    · rw [haltAfter_ranOut, haltAfter_ranOut, same]
    · exact same
    · rw [follow_ranOut, follow_ranOut, same]
      cases b with
      | tap _ => rfl
      | tzx b => simp only [Player.turn, abreast.route]

theorem Abreast.entryBeats (abreast : p.Abreast q) : p.entryBeats t x = q.entryBeats t x := by
  unfold Player.entryBeats
  rw [abreast.ordinal, abreast.offset, abreast.settings]

theorem InStep.entered (inStep : p.InStep q) (due : p.remaining = 0) {answer : Except Fault Unit}
    (entered : p.enter t x = (p', answer)) : ∃ q', q.enter t x = (q', answer) ∧ p'.InStep q' := by
  obtain ⟨abreast, same⟩ := inStep.abreast.enter (t := t) (x := x)
  have due' : (p.enter t x).1.remaining = (q.enter t x).1.remaining := by
    rw [enter_due due, enter_due (inStep.remaining ▸ due)]
  have on : (p.enter t x).1.InStep (q.enter t x).1 := ⟨abreast, due', inStep.enter_ranOut⟩
  rw [entered] at same on
  exact ⟨_, Prod.ext rfl same.symm, on⟩

/-! ### Walks -/

theorem Abreast.next (abreast : p.Abreast q) :
    p.phase.next p.settings t.image = q.phase.next q.settings t.image := by
  rw [abreast.phase, abreast.settings]

theorem ne_idle_of_next {phase rest : Phase} {i : Interval} {image : Image}
    (next : phase.next s image = .ok (some (i, rest))) : phase ≠ .idle := by
  rintro rfl
  exact nomatch next

/-- Players that walk come to be in step, with the same answer, and do the same to the line. -/
structure WalkAlike (t : Tape) (x : Index) (budget : Nat) (p q : Player) : Prop where
  inStep : (walk t x budget p).1.InStep (walk t x budget q).1
  answer : (walk t x budget p).2 = (walk t x budget q).2
  beats : walkBeats t x budget p = walkBeats t x budget q

theorem WalkAlike.of_eq {answer : Except Fault Unit} (walked : walk t x budget p = (p', answer))
    (walked' : walk t x budget q = (q', answer)) (inStep : p'.InStep q')
    (beats : walkBeats t x budget p = walkBeats t x budget q) : WalkAlike t x budget p q :=
  ⟨by rwa [walked, walked'], by rw [walked, walked'], beats⟩

theorem WalkAlike.walked (alike : WalkAlike t x budget p q) {answer : Except Fault Unit}
    (walked : walk t x budget p = (p', answer)) :
    ∃ q', walk t x budget q = (q', answer) ∧ p'.InStep q' := by
  obtain ⟨inStep, same, -⟩ := alike
  rw [walked] at inStep same
  exact ⟨_, Prod.ext rfl same.symm, inStep⟩

/-- Players in step walk alike, from block to block. -/
theorem InStep.walk (inStep : p.InStep q) (due : p.remaining = 0) (budget : Nat) :
    WalkAlike t x budget p q := by
  fun_induction Player.walk t x budget p generalizing q with
  | case1 budget p playing fault failed =>
    have playing' := inStep.abreast.playing ▸ playing
    have failed' := inStep.abreast.next ▸ failed
    refine .of_eq (walk_fault playing failed) (walk_fault playing' failed') (inStep.abandon _) ?_
    rw [walkBeats_fault playing failed, walkBeats_fault playing' failed']
  | case2 budget p playing i rest next =>
    have playing' := inStep.abreast.playing ▸ playing
    have next' := inStep.abreast.next ▸ next
    refine .of_eq (walk_start playing next) (walk_start playing' next')
      (inStep.begin (ne_idle_of_next next) i rest) ?_
    rw [walkBeats_start playing next, walkBeats_start playing' next']
  | case3 p playing ended =>
    have playing' := inStep.abreast.playing ▸ playing
    have ended' := inStep.abreast.next ▸ ended
    have same := walk_spent (x := x) playing' ended'
    rw [← inStep.leave.abreast.ordinal] at same
    refine .of_eq (walk_spent playing ended) same inStep.leave ?_
    rw [walkBeats_spent playing ended, walkBeats_spent playing' ended']
  | case4 p playing ended budget r fault failed =>
    have playing' := inStep.abreast.playing ▸ playing
    have ended' := inStep.abreast.next ▸ ended
    obtain ⟨r', failed', on⟩ := inStep.leave.entered (leave_due due) failed
    refine .of_eq (walk_refused playing ended failed) (walk_refused playing' ended' failed') on ?_
    rw [walkBeats_refused playing ended failed, walkBeats_refused playing' ended' failed',
      inStep.leave.abreast.entryBeats]
  | case5 p playing ended budget r went ih =>
    have playing' := inStep.abreast.playing ▸ playing
    have ended' := inStep.abreast.next ▸ ended
    obtain ⟨r', went', on⟩ := inStep.leave.entered (leave_due due) went
    -- No interval has begun yet, so the walk goes on as it started.
    have entered : (p.leave.enter t x).1.remaining = 0 := enter_due (leave_due due)
    rw [went] at entered
    obtain ⟨stays, answer, beats⟩ := ih on entered
    refine ⟨?_, ?_, ?_⟩
    · rwa [walk_enter playing ended went, walk_enter playing' ended' went']
    · rwa [walk_enter playing ended went, walk_enter playing' ended' went']
    · rw [walkBeats_enter playing ended went, walkBeats_enter playing' ended' went',
        inStep.leave.abreast.entryBeats, beats]
  | case6 budget p stopped =>
    have stopped' := inStep.abreast.playing ▸ stopped
    refine .of_eq (walk_stopped stopped) (walk_stopped stopped') inStep ?_
    rw [walkBeats_stopped stopped, walkBeats_stopped stopped']

/-! ### Calls -/

/-- Players in step let time pass with the same answer, and do the same to the line meanwhile. -/
theorem InStep.spend (inStep : p.InStep q) {r : Except Fault Nat}
    (spent : spend t x fuel p left = some (p', r)) (clock : Nat) :
    ∃ q', Player.spend t x fuel q left = some (q', r) ∧ p'.InStep q' ∧
      spendBeats t x fuel p clock left = spendBeats t x fuel q clock left := by
  induction fuel generalizing p q left clock with
  | zero => exact nomatch spent
  | succ fuel ih =>
    have playing' := inStep.abreast.playing
    have same := inStep.remaining
    have alike := (inStep.rest 0).walk (t := t) (x := x) rfl walkLimit
    cases spend_cases spent with
    | stopped stopped =>
      rw [stopped] at playing'
      refine ⟨q, spend_stopped playing'.symm, inStep, ?_⟩
      rw [spendBeats_stopped stopped, spendBeats_stopped playing'.symm]
    | early playing early =>
      rw [playing] at playing'
      refine ⟨_, spend_early playing'.symm (same ▸ early), same ▸ inStep.rest _, ?_⟩
      rw [spendBeats_early early, spendBeats_early (same ▸ early)]
    | fault playing late walked =>
      rw [playing] at playing'
      obtain ⟨q', walked', on⟩ := alike.walked walked
      rw [← startInterval] at walked'
      refine ⟨q'.stop, ?_, on.stop, ?_⟩
      · rw [spend_late playing'.symm (same ▸ late), walked']
      · rw [spendBeats_late playing late, spendBeats_late playing'.symm (same ▸ late), walked,
          walked', same, alike.beats]
    | edge playing late walked on =>
      rw [playing] at playing'
      obtain ⟨q₁, walked', together⟩ := alike.walked walked
      rw [← startInterval] at walked'
      obtain ⟨q', spent', stays, beats⟩ := ih together on (clock + p.remaining)
      refine ⟨q', ?_, stays, ?_⟩
      · rw [spend_late playing'.symm (same ▸ late), walked', ← same]
        exact spent'
      · rw [spendBeats_late playing late, spendBeats_late playing'.symm (same ▸ late), walked,
          walked', ← same, alike.beats]
        exact congrArg (_ ++ ·) beats

/-! ### Drives -/

inductive Act
  | play
  | stop
  | rewind
  | seek (ordinal : Nat)
  | advance (ticks : Nat)

/-- What becomes of a player that is told one thing after the other from a time on: how the calls
are answered, what is done to the line and when, and the player behind it all. The clock is that of
the caller, so a call takes all its ticks, also where the tape stops in the middle. -/
inductive Drives (t : Tape) (x : Index) : (clock : Nat) → Player → List Act →
    List (Except Fault Nat) → List (Nat × Beat) → Player → Prop
  | done {clock : Nat} {p : Player} : Drives t x clock p [] [] [] p
  | play {clock : Nat} {p q : Player} {acts : List Act} {answers : List (Except Fault Nat)}
      {beats : List (Nat × Beat)} (on : Drives t x clock p.play acts answers beats q) :
      Drives t x clock p (.play :: acts) answers beats q
  | stop {clock : Nat} {p q : Player} {acts : List Act} {answers : List (Except Fault Nat)}
      {beats : List (Nat × Beat)} (on : Drives t x clock p.stop acts answers beats q) :
      Drives t x clock p (.stop :: acts) answers beats q
  | rewind {clock : Nat} {p q : Player} {acts : List Act} {answers : List (Except Fault Nat)}
      {beats : List (Nat × Beat)} (on : Drives t x clock p.rewind acts answers beats q) :
      Drives t x clock p (.rewind :: acts) answers beats q
  | seek {clock ordinal : Nat} {p q : Player} {acts : List Act} {answers : List (Except Fault Nat)}
      {beats : List (Nat × Beat)} (inside : ordinal < x.count)
      (on : Drives t x clock (p.seek ordinal (t.offsetAt ordinal)) acts answers beats q) :
      Drives t x clock p (.seek ordinal :: acts) answers beats q
  | advance {clock fuel ticks : Nat} {p q r : Player} {acts : List Act} {answer : Except Fault Nat}
      {answers : List (Except Fault Nat)} {beats : List (Nat × Beat)}
      (advanced : p.advance t x fuel ticks = some (q, answer))
      (on : Drives t x (clock + ticks) q acts answers beats r) :
      Drives t x clock p (.advance ticks :: acts) (answer :: answers)
        (spendBeats t x fuel p clock ticks ++ beats) r

variable {acts : List Act} {answers : List (Except Fault Nat)} {beats : List (Nat × Beat)}

theorem Drives.reachable (drives : p.Drives t x clock acts answers beats q)
    (reachable : Reachable t x s p) : Reachable t x s q := by
  induction drives with
  | done => exact reachable
  | play _ ih => exact ih reachable.play
  | stop _ ih => exact ih reachable.stop
  | rewind _ ih => exact ih reachable.rewind
  | seek inside _ ih => exact ih (reachable.seek inside)
  | advance advanced _ ih => exact ih (reachable.advance advanced)

/-- The level changes by what is done to the line, and by nothing else. -/
theorem Drives.level (drives : p.Drives t x clock acts answers beats q) :
    q.level = levelBehind p.level (beats.map Prod.snd) := by
  induction drives with
  | done => rfl
  | play _ ih | stop _ ih | rewind _ ih | seek _ _ ih => exact ih
  | advance advanced _ ih =>
    obtain ⟨_, spent, -⟩ := advance_eq_some_iff.1 advanced
    rw [ih, spend_level spent, List.map_append, levelBehind_append]

/-- Players in step, told the same, give the same answers, do the same to the line at the same
times, and stay in step. -/
theorem InStep.drives (inStep : p.InStep q) (drives : p.Drives t x clock acts answers beats p') :
    ∃ q', q.Drives t x clock acts answers beats q' ∧ p'.InStep q' := by
  induction drives generalizing q with
  | done => exact ⟨q, .done, inStep⟩
  | play _ ih => exact (ih inStep.play).imp fun _ ⟨on, stays⟩ => ⟨.play on, stays⟩
  | stop _ ih => exact (ih inStep.stop).imp fun _ ⟨on, stays⟩ => ⟨.stop on, stays⟩
  | rewind _ ih => exact (ih inStep.rewind).imp fun _ ⟨on, stays⟩ => ⟨.rewind on, stays⟩
  | seek inside _ ih =>
    exact (ih (inStep.seek _ _)).imp fun _ ⟨on, stays⟩ => ⟨.seek inside on, stays⟩
  | @advance clock _ _ _ _ _ _ _ _ _ advanced _ ih =>
    obtain ⟨left, spent, answer⟩ := advance_eq_some_iff.1 advanced
    obtain ⟨q', spent', stays, same⟩ := inStep.spend spent clock
    obtain ⟨r, on, alike⟩ := ih stays
    have advanced' := advance_eq_some_iff.2 ⟨left, spent', answer⟩
    exact ⟨r, same ▸ .advance advanced' on, alike⟩

end Player

end Cassette
