import Cassette.Proofs.Ending
import Cassette.Proofs.Playback
import Cassette.Proofs.Stalling

/-! What a player does, step by step. A walk starts an interval or enters a block; `Player.Course`
lists both in the order in which they happen, and keeps count of the blocks that the walk may
still enter. A player driven by nothing but the passing of time follows its course: as long as
the intervals last, any call returns in the middle of it (`Course.goOn_early`), and a longer call
goes on where the course ends (`Course.goOn_eq`). Main statement: `Course.performs`. -/

namespace Cassette

/-! ### Phases -/

namespace Signal

def levelBehind : (level : Bool) → List Beat → Bool
  | level, [] => level
  | level, .start i :: rest => levelBehind (i.swing.apply level) rest
  | _, .set level :: rest => levelBehind level rest

theorem heard_append (level : Bool) (bs bs' : List Beat) :
    heard level (bs ++ bs') = heard level bs ++ heard (levelBehind level bs) bs' := by
  induction bs generalizing level with
  | nil => rfl
  | cons b bs ih =>
    cases b with
    | start i => exact congrArg (_ :: ·) (ih _)
    | set level => exact ih level

theorem levelBehind_append (level : Bool) (bs bs' : List Beat) :
    levelBehind level (bs ++ bs') = levelBehind (levelBehind level bs) bs' := by
  induction bs generalizing level with
  | nil => rfl
  | cons b bs ih => cases b <;> exact ih _

/-- A phase starts these intervals one after the other, and has then come to be another. -/
inductive Phase.Sounds (s : Settings) (image : Image) : Phase → List Interval → Phase → Prop
  | here {phase : Phase} : Sounds s image phase [] phase
  | next {phase phase' phase'' : Phase} {i : Interval} {rest : List Interval}
      (next : phase.next s image = .ok (some (i, phase')))
      (on : Sounds s image phase' rest phase'') : Sounds s image phase (i :: rest) phase''

variable {s : Settings} {image : Image} {phase phase' phase'' : Phase} {l l' : List Interval}

theorem Phase.Sounds.trans (first : phase.Sounds s image l phase')
    (second : phase'.Sounds s image l' phase'') : phase.Sounds s image (l ++ l') phase'' := by
  induction first with
  | here => exact second
  | next next _ ih => exact .next next (ih second)

theorem Phase.Ready.sounds (whole : image.Whole) (ready : phase.Ready image) :
    ∃ phase', phase.Sounds s image (phase.intervals s image) phase' ∧
      phase'.next s image = .ok none := by
  generalize intervals : phase.intervals s image = l
  induction l generalizing phase with
  | nil =>
    rcases Phase.next_cases (s := s) whole ready with ⟨-, ended⟩ | ⟨i, rest, first, -⟩
    · exact ⟨phase, .here, ended⟩
    · exact nomatch intervals.symm.trans first
  | cons i l ih =>
    rcases Phase.next_cases (s := s) whole ready with ⟨ended, -⟩ | ⟨j, rest, first, next, going, -⟩
    · exact nomatch intervals.symm.trans ended
    · obtain ⟨rfl, behind⟩ := List.cons.inj (intervals.symm.trans first)
      obtain ⟨phase', sounds, ended⟩ := ih going behind.symm
      exact ⟨phase', .next next sounds, ended⟩

theorem takePause_ne_idle {ticks : Nat} {i : Interval} :
    Phase.takePause ticks ≠ some (i, .idle) := by
  intro taken
  unfold Phase.takePause at taken
  split at taken <;> exact nomatch taken

theorem Phase.next_ne_idle {i : Interval} : phase.next s image ≠ .ok (some (i, .idle)) := by
  intro next
  cases phase with
  | idle | done | sync2 => exact nomatch next
  | pilot _ left | tone _ left => cases left <;> exact nomatch next
  | pulses widths => cases widths <;> exact nomatch next
  | pause ticks => exact takePause_ne_idle (Except.ok.inj next)
  | data c | samples c | runs c =>
    obtain ⟨found, -, next⟩ := bind_eq_ok_iff.1 next
    cases found with
    | none => exact takePause_ne_idle (Except.ok.inj next)
    | some _ => exact nomatch next

theorem Phase.Sounds.ne_idle (sounds : phase.Sounds s image l phase') (under : phase ≠ .idle) :
    phase' ≠ .idle := by
  induction sounds with
  | here => exact under
  | next next _ ih => exact ih fun idle => next_ne_idle (idle ▸ next)

end Signal

open Signal

namespace Player

variable {t : Tape} {x : Index} {s : Settings} {p q r : Player}
variable {k m n a left fuel ordinal : Nat} {os os' : List Nat} {l l' : List (Bool × Nat)}

/-! ### Courses -/

/-- From one point of a walk to another, the blocks that are entered and the intervals that are
started on the way. The numbers are those of the blocks that the walk may still enter; behind an
interval the next walk begins. -/
inductive Course (t : Tape) (x : Index) :
    Nat → Player → List Nat → List (Bool × Nat) → Nat → Player → Prop
  | here {n : Nat} {p : Player} : Course t x n p [] [] n p
  | start {n m : Nat} {p q : Player} {os : List Nat} {l : List (Bool × Nat)} {i : Interval}
      {rest : Phase} (playing : p.playing = true)
      (next : p.phase.next p.settings t.image = .ok (some (i, rest)))
      (on : Course t x walkLimit (p.begin i rest) os l m q) :
      Course t x n p os ((i.swing.apply p.level, i.ticks) :: l) m q
  | enter {n m : Nat} {p q r : Player} {os : List Nat} {l : List (Bool × Nat)}
      (playing : p.playing = true) (ended : p.phase.next p.settings t.image = .ok none)
      (entered : { p with remaining := 0 }.leave.enter t x = (q, .ok ()))
      (on : Course t x n q os l m r) : Course t x (n + 1) p (p.leave.ordinal :: os) l m r

theorem Course.trans (first : p.Course t x n os l k q) (second : q.Course t x k os' l' m r) :
    p.Course t x n (os ++ os') (l ++ l') m r := by
  induction first with
  | here => exact second
  | start playing next _ ih => exact .start playing next (ih second)
  | enter playing ended entered _ ih => exact .enter playing ended entered (ih second)

/-- A walk may still enter what it has not entered, and more behind an interval. -/
theorem Course.budget (course : p.Course t x n os l m q) (small : n ≤ walkLimit) :
    n ≤ m + os.length ∧ m ≤ walkLimit := by
  induction course with
  | here => exact ⟨Nat.le_add_right _ _, small⟩
  | start _ _ _ ih =>
    obtain ⟨enough, most⟩ := ih (Nat.le_refl _)
    exact ⟨Nat.le_trans small enough, most⟩
  | enter _ _ _ _ ih =>
    obtain ⟨enough, most⟩ := ih (Nat.le_of_succ_le small)
    exact ⟨Nat.succ_le_succ enough, most⟩

/-- A course keeps whatever starting an interval and entering a block keep. -/
theorem Course.keeps {P : Player → Prop} (course : p.Course t x n os l m q) (here : P p)
    (start : ∀ p i rest, P p → p.phase.next p.settings t.image = .ok (some (i, rest)) →
      P (p.begin i rest))
    (enter : ∀ p, P p → P ({ p with remaining := 0 }.leave.enter t x).1) : P q := by
  induction course with
  | here => exact here
  | start _ next _ ih => exact ih (start _ _ _ here next)
  | @enter _ _ p _ _ _ _ _ _ entered _ ih =>
    have after := enter p here
    rw [entered] at after
    exact ih after

/-- The players that come about while a tape is played, also in the middle of a walk. -/
inductive Underway (t : Tape) (x : Index) (s : Settings) : Player → Prop
  | reached {p : Player} (reachable : Reachable t x s p) : Underway t x s p
  | course {p q : Player} {n m : Nat} {os : List Nat} {l : List (Bool × Nat)}
      (underway : Underway t x s p) (course : p.Course t x n os l m q) : Underway t x s q

theorem Routed.begin (h : Indexed t x) (routed : p.Routed t x s) {i : Interval} {rest : Phase}
    (next : p.phase.next p.settings t.image = .ok (some (i, rest))) :
    (p.begin i rest).Routed t x s :=
  ⟨(routed.standing.next_sound h).1 i rest next, routed.framed.settings, routed.framed.route⟩

theorem Course.routed (h : Indexed t x) (course : p.Course t x n os l m q)
    (routed : p.Routed t x s) : q.Routed t x s :=
  course.keeps routed (fun _ _ _ routed next => routed.begin h next)
    fun p routed => (routed.paused 0 p.playing).enter h

theorem Underway.routed (h : Indexed t x) (underway : p.Underway t x s) : p.Routed t x s := by
  induction underway with
  | reached reachable => exact reachable.routed h
  | course _ course ih => exact course.routed h ih

/-! ### Entering a block -/

/-- The player plays on, and the block of this number is next: what was under way is over. -/
structure Reaches (t : Tape) (p : Player) (ordinal : Nat) : Prop where
  playing : p.playing = true
  ended : p.phase.next p.settings t.image = .ok none
  ordinal : p.leave.ordinal = ordinal

theorem Reaches.course (reaches : p.Reaches t ordinal)
    (enters : { p with remaining := 0 }.leave.enter t x = (q, .ok ())) (n : Nat) :
    p.Course t x (n + 1) [ordinal] [] n q := by
  rw [← reaches.ordinal]
  exact .enter reaches.playing reaches.ended enters .here

def atBlock (p : Player) (ordinal offset : Nat) (b : Block) : Player :=
  { p with
    ordinal
    offset
    behind := offset + b.size
    phase := .idle
    remaining := 0
    head := headAfterEntry b (offset + b.size) }

theorem Reaches.enter_eq (h : Indexed t x) (routed : p.Routed t x s)
    (reaches : p.Reaches t ordinal) {b : Block} (found : t.scan.blocks[ordinal]? = some b) :
    ∃ offset, { p with remaining := 0 }.leave.enter t x =
      match Entry.ofBlock s t.image b with
      | .error fault => (p.atBlock ordinal offset b, .error fault)
      | .ok (.signal phase) => ({ p.atBlock ordinal offset b with phase }, .ok ())
      | .ok .halt => ((p.atBlock ordinal offset b).haltAfter x.count, .ok ())
      | .ok (.setLevel level) => ({ p.atBlock ordinal offset b with level, phase := .done }, .ok ())
      | .ok .route =>
        let (turn, route) := (p.atBlock ordinal offset b).turn x b
        { p.atBlock ordinal offset b with route }.follow t x turn := by
  obtain rfl := routed.framed.settings
  have left := (routed.paused 0 p.playing).leave h
  have same : { p with remaining := 0 }.leave.ordinal = ordinal := by
    rw [← reaches.ordinal, leave_ordinal, leave_ordinal]
    rfl
  obtain ⟨inside, read, -⟩ := h.read_of_found found
  refine ⟨t.offsetAt ordinal, ?_⟩
  have there : { p with remaining := 0 }.leave =
      { p with ordinal, offset := t.offsetAt ordinal, phase := .idle, remaining := 0 } := by
    have offset := left.standing.offset
    have idle : { p with remaining := 0 }.leave.phase = .idle := leave_idle
    rw [same] at offset
    rw [← offset, ← same, ← idle]
    unfold leave
    split <;> rfl
  rw [there, enter, if_neg (Nat.not_le.2 inside)]
  simp only [read]
  rfl

/-! ### The course of a phase -/

/-- The intervals that a phase starts are a course, and only they and the head have changed. -/
theorem course_of_sounds {phase' : Phase} {l : List Interval} (playing : p.playing = true)
    (sounds : p.phase.Sounds p.settings t.image l phase') (n : Nat) :
    ∃ q m, p.Course t x n [] (heard p.level (l.map .start)) m q ∧
      m = (if l = [] then n else walkLimit) ∧
      q = { p with
        phase := phase'
        level := levelBehind p.level (l.map .start)
        remaining := q.remaining
        head := q.head } := by
  generalize here : p.phase = phase, set : p.settings = s at sounds
  induction sounds generalizing p n with
  | here => exact ⟨p, n, .here, rfl, by subst here set; rfl⟩
  | @next phase mid phase' i l next on ih =>
    subst here set
    obtain ⟨q, m, course, budget, same⟩ :=
      ih (p := p.begin i mid) (by exact playing) walkLimit rfl rfl
    refine ⟨q, m, .start playing next course, ?_, same⟩
    rw [budget, ite_self, if_neg (List.cons_ne_nil _ _)]

/-- A block that sounds is entered, and then it starts its intervals. -/
theorem Reaches.sounds (h : Indexed t x) (routed : p.Routed t x s) (reaches : p.Reaches t ordinal)
    {b : Block} (found : t.scan.blocks[ordinal]? = some b) {phase phase' : Phase}
    {is : List Interval} (entered : Entry.ofBlock s t.image b = .ok (.signal phase))
    (sounds : phase.Sounds s t.image is phase') (n : Nat) :
    ∃ q m, p.Course t x (n + 1) [ordinal] (heard p.level (is.map .start)) m q ∧
      m = (if is = [] then n else walkLimit) ∧ q.playing = true ∧ q.settings = s ∧
      q.ordinal = ordinal ∧ q.phase = phase' ∧ q.level = levelBehind p.level (is.map .start) ∧
      q.route = p.route := by
  obtain rfl := routed.framed.settings
  obtain ⟨offset, enters⟩ := reaches.enter_eq h routed found
  simp only [entered] at enters
  obtain ⟨q, m, course, budget, same⟩ :=
    course_of_sounds (t := t) (x := x) (p := { p.atBlock ordinal offset b with phase })
      reaches.playing sounds n
  refine ⟨q, m, (reaches.course enters n).trans course, budget, ?_⟩
  rw [same]
  exact ⟨reaches.playing, rfl, rfl, rfl, rfl, rfl⟩

theorem reaches_next (playing : p.playing = true) (under : p.phase ≠ .idle)
    (ended : p.phase.next p.settings t.image = .ok none) : p.Reaches t (p.ordinal + 1) where
  playing := playing
  ended := ended
  ordinal := by rw [leave_ordinal, upcoming_of_playing under]

/-! ### Courses in time -/

/-- Goes on with a walk that may still enter `budget` blocks, and then lets time pass. -/
def goOn (t : Tape) (x : Index) (fuel budget : Nat) (p : Player) (left : Nat) :
    Option (Player × Except Fault Nat) :=
  match walk t x budget p with
  | (q, .error fault) => some (q.stop, .error fault)
  | (q, .ok ()) => spend t x fuel q left

theorem spend_goOn (playing : p.playing = true) (late : p.remaining ≤ left) :
    spend t x (fuel + 1) p left =
      goOn t x fuel walkLimit { p with remaining := 0 } (left - p.remaining) :=
  spend_late playing late

theorem goOn_start (playing : p.playing = true) {i : Interval} {rest : Phase}
    (next : p.phase.next p.settings t.image = .ok (some (i, rest))) :
    goOn t x fuel n { p with remaining := 0 } left = spend t x fuel (p.begin i rest) left := by
  unfold goOn walk
  rw [if_pos playing]
  simp only [next]
  rfl

theorem goOn_enter (playing : p.playing = true)
    (ended : p.phase.next p.settings t.image = .ok none)
    (entered : { p with remaining := 0 }.leave.enter t x = (q, .ok ())) :
    goOn t x fuel (n + 1) { p with remaining := 0 } left =
      goOn t x fuel n { q with remaining := 0 } left := by
  have due : q.remaining = 0 := by
    have after := enter_due (t := t) (x := x) (leave_due (p := { p with remaining := 0 }) rfl)
    rwa [entered] at after
  have here : { q with remaining := 0 } = q := by rw [← due]
  unfold goOn
  rw [here, walk, if_pos playing]
  simp only [ended, entered]

theorem goOn_fault (playing : p.playing = true) {fault : Fault}
    (failed : p.phase.next p.settings t.image = .error fault) :
    goOn t x fuel n p left = some ((p.abandon t.length).stop, .error fault) := by
  unfold goOn walk
  rw [if_pos playing]
  simp only [failed]

/-- Time that lasts as long as the intervals of a course goes on where it ends. -/
theorem Course.goOn_eq (course : p.Course t x n os l m q) (fuel left : Nat) :
    goOn t x (fuel + l.length) n { p with remaining := 0 } (lasting l + left) =
      goOn t x fuel m { q with remaining := 0 } left := by
  induction course with
  | here => simp only [List.length_nil, lasting, Nat.zero_add, Nat.add_zero]
  | @start n m p q os l i rest playing next _ ih =>
    have late : (p.begin i rest).remaining ≤ i.ticks + lasting l + left := by
      show i.ticks ≤ _
      omega
    rw [goOn_start playing next, List.length_cons, ← Nat.add_assoc, lasting,
      spend_goOn (by exact playing) late, ← ih]
    congr 1
    show i.ticks + lasting l + left - i.ticks = _
    omega
  | enter playing ended entered _ ih => rw [goOn_enter playing ended entered, ih]

/-- In less time the player is somewhere on the way, with ticks left of the interval that was
started last. -/
theorem Course.goOn_early (course : p.Course t x n os l m q) (early : a < lasting l) :
    ∃ os₁ os₂ l₁ l₂ k r fuel left, os = os₁ ++ os₂ ∧ l = l₁ ++ l₂ ∧ p.Course t x n os₁ l₁ k r ∧
      r.playing = true ∧
      goOn t x fuel n { p with remaining := 0 } a =
        some ({ r with remaining := left }, .ok 0) := by
  induction course generalizing a with
  | here => exact absurd early (Nat.not_lt_zero a)
  | @start n m p q os l i rest playing next _ ih =>
    have begun : (p.begin i rest).playing = true := playing
    have due : (p.begin i rest).remaining = i.ticks := rfl
    rcases Nat.lt_or_ge a i.ticks with within | behind
    · refine ⟨[], os, [_], l, walkLimit, p.begin i rest, 1, i.ticks - a, rfl, rfl,
        .start playing next .here, begun, ?_⟩
      rw [goOn_start playing next, spend_early begun (due ▸ within)]
      rfl
    · obtain ⟨os₁, os₂, l₁, l₂, k, r, fuel, left, blocks, intervals, on, still, went⟩ :=
        ih (a := a - i.ticks) (by rw [lasting] at early; omega)
      refine ⟨os₁, os₂, _ :: l₁, l₂, k, r, fuel + 1, left, blocks, congrArg _ intervals,
        .start playing next on, still, ?_⟩
      rw [goOn_start playing next, spend_goOn begun (due ▸ behind)]
      exact went
  | enter playing ended entered _ ih =>
    obtain ⟨os₁, os₂, l₁, l₂, k, r, fuel, left, blocks, intervals, on, still, went⟩ := ih early
    refine ⟨_ :: os₁, os₂, l₁, l₂, k, r, fuel, left, congrArg _ blocks, intervals,
      .enter playing ended entered on, still, ?_⟩
    rw [goOn_enter playing ended entered]
    exact went

/-- What a player does that is driven by nothing but the passing of time: behind the interval under
way it enters these blocks and starts these intervals. -/
structure Performs (t : Tape) (x : Index) (p : Player) (os : List Nat) (l : List (Bool × Nat))
    (m : Nat) (q : Player) : Prop where
  course : p.Course t x walkLimit os l m q
  /-- As long as the intervals last, a call returns without fault somewhere on the way. -/
  early : ∀ a < p.remaining + lasting l, ∃ os₁ os₂ l₁ l₂ k r left, os = os₁ ++ os₂ ∧ l = l₁ ++ l₂ ∧
    p.Course t x walkLimit os₁ l₁ k r ∧ r.playing = true ∧
    p.Elapses t x a { r with remaining := left } (.ok a)
  /-- A longer call goes on at the end of the way, in a walk that may still enter `m` blocks. -/
  late : ∀ fuel left, spend t x (fuel + l.length + 1) p (p.remaining + lasting l + left) =
    goOn t x fuel m { q with remaining := 0 } left

/-- A player that plays performs its course. -/
theorem Course.performs (course : p.Course t x walkLimit os l m q) (playing : p.playing = true) :
    p.Performs t x os l m q where
  course := course
  early a within := by
    rcases Nat.lt_or_ge a p.remaining with early | late
    · refine ⟨[], os, [], l, walkLimit, p, p.remaining - a, rfl, rfl, .here, playing, ?_⟩
      exact elapses_iff.2 ⟨1, .ok 0, spend_early playing early, rfl⟩
    · obtain ⟨os₁, os₂, l₁, l₂, k, r, fuel, left, blocks, intervals, on, still, went⟩ :=
        course.goOn_early (a := a - p.remaining) (by omega)
      refine ⟨os₁, os₂, l₁, l₂, k, r, left, blocks, intervals, on, still, ?_⟩
      exact elapses_iff.2 ⟨fuel + 1, .ok 0, (spend_goOn playing late).trans went, rfl⟩
  late fuel left := by
    have late : p.remaining ≤ p.remaining + lasting l + left := by omega
    rw [spend_goOn playing late, ← course.goOn_eq fuel left]
    congr 1
    omega

/-- A block under way that cannot go on is reported as soon as all before it has been played. -/
theorem Performs.fault (performs : p.Performs t x os l m q) (playing : q.playing = true)
    {fault : Fault} (failed : q.phase.next q.settings t.image = .error fault) (left : Nat) :
    p.Elapses t x (p.remaining + lasting l + left)
      ({ q with remaining := 0 }.abandon t.length).stop (.error fault) := by
  have reported : goOn t x 1 m { q with remaining := 0 } left =
      some (({ q with remaining := 0 }.abandon t.length).stop, .error fault) :=
    goOn_fault (by exact playing) (by exact failed)
  exact elapses_iff.2 ⟨_, .error fault, (performs.late 1 left).trans reported, rfl⟩

end Player

end Cassette
