import Cassette.Proofs.Forgetting

/-! What a fault leaves behind. A tape that cannot be played on is stopped in front of a block:
the one whose payload could not be played, the one that could not be entered, or the one that would
have been entered too many (`Player.Stumbles`). A walk fails only in one of these ways
(`walk_closes`), and a call only where its course has come to such a walk (`spend_closes`). What is
under way in a block has begun with its first interval (`Player.Stems`), so a recording that cannot
be played starts the same intervals whenever it is entered, and fails behind them. Main statement:
`Reachable.faulted`. -/

namespace Cassette.Player

open Signal

variable {t : Tape} {x : Index} {s : Settings} {p q r w : Player} {fault : Fault}
variable {n m fuel left ticks ordinal : Nat} {os : List Nat} {l : List (Bool × Nat)}

/-! ### Walks -/

/-- A walk that may still enter so many blocks goes no further, and the block of this number is to
blame: its payload cannot be played, it cannot be entered, or it is one block too many. -/
inductive Stumbles (t : Tape) (x : Index) : Nat → Player → Nat → Fault → Prop
  | payload {n : Nat} {w : Player} {fault : Fault} (playing : w.playing = true)
      (failed : w.phase.next w.settings t.image = .error fault) : Stumbles t x n w w.ordinal fault
  | entry {n : Nat} {w q : Player} {fault : Fault} (playing : w.playing = true)
      (ended : w.phase.next w.settings t.image = .ok none)
      (refused : { w with remaining := 0 }.leave.enter t x = (q, .error fault)) :
      Stumbles t x (n + 1) w w.leave.ordinal fault
  | limit {w : Player} (playing : w.playing = true)
      (ended : w.phase.next w.settings t.image = .ok none) :
      Stumbles t x 0 w w.leave.ordinal (.endlessWalk w.leave.ordinal)

/-- In front of a block, with nothing left of what was under way. -/
structure Faulted (w : Player) (ordinal : Nat) (q : Player) : Prop where
  ordinal : q.ordinal = ordinal
  phase : q.phase = .idle
  remaining : q.remaining = 0
  ranOut : q.ranOut = w.ranOut

theorem Stumbles.playing (stumbles : w.Stumbles t x n ordinal fault) : w.playing = true := by
  cases stumbles <;> assumption

theorem follow_refused {turn : Turn} (refused : p.follow t x turn = (q, .error fault)) :
    ∃ head, q = { p with head } := by
  cases turn with
  | goTo target =>
    simp only [follow] at refused
    split at refused
    · exact ⟨_, (Prod.mk.inj refused).1.symm⟩
    · cases (Prod.mk.inj refused).2
  | _ => cases (Prod.mk.inj refused).2

theorem enter_refused (refused : p.enter t x = (q, .error fault)) :
    ∃ behind head route, q = { p with behind, head, route } := by
  unfold enter at refused
  split at refused
  · cases (Prod.mk.inj refused).2
  split at refused
  · exact ⟨_, _, _, (Prod.mk.inj refused).1.symm⟩
  · exact ⟨_, _, _, (Prod.mk.inj refused).1.symm⟩
  · simp only at refused
    split at refused
    · exact ⟨_, _, _, (Prod.mk.inj refused).1.symm⟩
    · cases (Prod.mk.inj refused).2
    · cases (Prod.mk.inj refused).2
    · cases (Prod.mk.inj refused).2
    · obtain ⟨head, rfl⟩ := follow_refused refused
      exact ⟨_, _, _, rfl⟩

theorem leave_ordinal_due : { p with remaining := 0 }.leave.ordinal = p.leave.ordinal := by
  rw [leave_ordinal, leave_ordinal]
  rfl

/-- A walk that stumbles is given up at the block that is to blame. -/
theorem Stumbles.walk (stumbles : w.Stumbles t x n ordinal fault) :
    ∃ q, Player.walk t x n { w with remaining := 0 } = (q, .error fault) ∧ w.Faulted ordinal q := by
  cases stumbles with
  | payload playing failed =>
    exact ⟨_, walk_fault (by exact playing) (by exact failed), rfl, rfl, rfl, rfl⟩
  | entry playing ended refused =>
    refine ⟨_, walk_refused (by exact playing) (by exact ended) refused, ?_⟩
    obtain ⟨behind, head, route, rfl⟩ := enter_refused refused
    exact ⟨leave_ordinal_due, leave_idle, leave_due rfl, leave_ranOut _⟩
  | limit playing ended =>
    refine ⟨_, ?_, leave_ordinal_due, leave_idle, leave_due rfl, leave_ranOut _⟩
    rw [walk_spent (by exact playing) (by exact ended), leave_ordinal_due]

/-- How a walk ends from a player that enters no more blocks: it has halted, an interval begins, or
the walk stumbles. -/
inductive Closes (t : Tape) (x : Index) (m : Nat) (w : Player) : Player × Except Fault Unit → Prop
  | halted (halted : w.playing ≠ true) : Closes t x m w ({ w with remaining := 0 }, .ok ())
  | starts {i : Interval} {rest : Phase} (playing : w.playing = true)
      (next : w.phase.next w.settings t.image = .ok (some (i, rest))) :
      Closes t x m w (w.begin i rest, .ok ())
  | stumbles {q : Player} {ordinal : Nat} {fault : Fault}
      (stumbles : w.Stumbles t x m ordinal fault) (faulted : w.Faulted ordinal q) :
      Closes t x m w (q, .error fault)

theorem Stumbles.closes (stumbles : w.Stumbles t x n ordinal fault) :
    w.Closes t x n (Player.walk t x n { w with remaining := 0 }) := by
  obtain ⟨q, walked, faulted⟩ := stumbles.walk
  rw [walked]
  exact .stumbles stumbles faulted

theorem entered_due {a : Except Fault Unit}
    (entered : { p with remaining := 0 }.leave.enter t x = (r, a)) : r.remaining = 0 := by
  have due : ({ p with remaining := 0 }.leave.enter t x).1.remaining = 0 :=
    enter_due (leave_due rfl)
  rwa [entered] at due

theorem walk_cases (n : Nat) (p : Player) :
    p.Closes t x n (walk t x n { p with remaining := 0 }) ∨
      ∃ k r, n = k + 1 ∧ p.playing = true ∧ p.phase.next p.settings t.image = .ok none ∧
        { p with remaining := 0 }.leave.enter t x = (r, .ok ()) ∧
        walk t x n { p with remaining := 0 } = walk t x k { r with remaining := 0 } := by
  by_cases playing : p.playing = true
  · match next : p.phase.next p.settings t.image, n with
    | .error _, _ => exact .inl (Stumbles.payload playing next).closes
    | .ok (some (i, rest)), _ =>
      rw [walk_start (by exact playing) (by exact next)]
      exact .inl (.starts playing next)
    | .ok none, 0 => exact .inl (Stumbles.limit playing next).closes
    | .ok none, n + 1 =>
      match went : { p with remaining := 0 }.leave.enter t x with
      | (_, .error _) => exact .inl (Stumbles.entry playing next went).closes
      | (r, .ok ()) =>
        have due : { r with remaining := 0 } = r := by rw [← entered_due went]
        rw [walk_enter (by exact playing) (by exact next) went]
        exact .inr ⟨n, r, rfl, playing, rfl, rfl, due.symm ▸ rfl⟩
  · rw [walk_stopped (by exact playing)]
    exact .inl (.halted playing)

/-- A walk enters blocks in which no interval begins, and then closes. -/
theorem walk_closes (n : Nat) (p : Player) :
    ∃ os m w, p.Course t x n os [] m w ∧ w.Closes t x m (walk t x n { p with remaining := 0 }) := by
  induction n generalizing p with
  | zero =>
    rcases walk_cases 0 p with closes | ⟨_, _, none, -⟩
    · exact ⟨[], 0, p, .here, closes⟩
    · cases none
  | succ n ih =>
    rcases walk_cases (n + 1) p with closes | ⟨k, r, more, playing, ended, entered, on⟩
    · exact ⟨[], n + 1, p, .here, closes⟩
    · obtain rfl := Nat.succ.inj more
      obtain ⟨os, m, w, course, closes⟩ := ih r
      exact ⟨_, m, w, .enter playing ended entered course, on ▸ closes⟩

/-! ### Calls -/

/-- A call follows a course, and returns without fault in the middle of an interval or at a halt, or
fails where a walk stumbles, as soon as all before it has been played. -/
theorem spend_closes {a : Except Fault Nat} (spent : spend t x fuel p left = some (q, a)) :
    ∃ os l m w, p.Course t x walkLimit os l m w ∧
      ((∃ k remaining, a = .ok k ∧ q = { w with remaining }) ∨
        ∃ ordinal fault, a = .error fault ∧ p.playing = true ∧ p.remaining + lasting l ≤ left ∧
          w.Stumbles t x m ordinal fault ∧ w.Faulted ordinal q ∧ q.playing = false) := by
  induction fuel generalizing p left with
  | zero => cases spent
  | succ fuel ih =>
    obtain ⟨os, m, w, course, closes⟩ := walk_closes (t := t) (x := x) walkLimit p
    cases spend_cases spent with
    | stopped => exact ⟨[], [], _, q, .here, .inl ⟨left, q.remaining, rfl, rfl⟩⟩
    | early => exact ⟨[], [], _, p, .here, .inl ⟨0, _, rfl, rfl⟩⟩
    | fault playing late walked =>
      rw [← startInterval, walked] at closes
      cases closes with
      | stumbles stumbles faulted =>
        obtain ⟨here, idle, due, ran⟩ := faulted
        exact ⟨os, [], m, w, course,
          .inr ⟨_, _, rfl, playing, late, stumbles, ⟨here, idle, due, ran⟩, rfl⟩⟩
    | edge playing late walked on =>
      rw [← startInterval, walked] at closes
      cases closes with
      | halted halted =>
        cases fuel with
        | zero => cases on
        | succ fuel =>
          rw [spend_stopped (by simpa using halted)] at on
          obtain ⟨rfl, rfl⟩ := Prod.mk.inj (Option.some.inj on)
          exact ⟨os, [], m, w, course, .inl ⟨_, 0, rfl, rfl⟩⟩
      | @starts i rest going next =>
        obtain ⟨os', l, m', w', course', answer⟩ := ih on
        refine ⟨_, _, m', w', course.trans (.start going next course'), answer.imp_right ?_⟩
        rintro ⟨ordinal, fault, failed, -, within, stumbled⟩
        have begun : i.ticks + lasting l ≤ left - p.remaining := within
        refine ⟨ordinal, fault, failed, playing, ?_, stumbled⟩
        rw [List.nil_append, lasting]
        omega

/-- Where a course comes to stumble, a call fails that lasts as long as it does. -/
theorem Performs.stumbles (performs : p.Performs t x os l m w)
    (walked : walk t x m { w with remaining := 0 } = (q, .error fault)) (left : Nat) :
    p.Elapses t x (p.remaining + lasting l + left) q.stop (.error fault) := by
  have reported : goOn t x 1 m { w with remaining := 0 } left = some (q.stop, .error fault) := by
    rw [goOn, walked]
  exact elapses_iff.2 ⟨_, _, (performs.late 1 left).trans reported, rfl⟩

/-! ### Blocks under way -/

/-- What is under way has come about by entering the block under the cursor and starting its
intervals from the first on. -/
def Stems (t : Tape) (s : Settings) (p : Player) : Prop :=
  p.phase = .idle ∨ p.phase = .done ∨ ∃ b phase is, t.scan.blocks[p.ordinal]? = some b ∧
    Entry.ofBlock s t.image b = .ok (.signal phase) ∧ phase.Sounds s t.image is p.phase

theorem Stems.begin (stems : p.Stems t s) (set : p.settings = s) {i : Interval} {rest : Phase}
    (next : p.phase.next p.settings t.image = .ok (some (i, rest))) :
    (p.begin i rest).Stems t s := by
  rcases stems with idle | done | ⟨b, phase, is, found, entered, sounds⟩
  · rw [idle] at next
    cases next
  · rw [done] at next
    cases next
  · rw [set] at next
    exact .inr (.inr ⟨b, phase, is ++ [i], found, entered, sounds.trans (.next next .here)⟩)

theorem follow_stems (idle : p.phase = .idle) (turn : Turn) : (p.follow t x turn).1.Stems t s := by
  cases turn with
  | next => exact .inr (.inl rfl)
  | goTo target =>
    simp only [follow]
    split
    · exact .inl idle
    · exact .inl rfl
  | stop => exact .inl (haltAfter_phase p x.count)
  | finish => exact .inl rfl

theorem Routed.enter_stems (h : Indexed t x) (routed : p.Routed t x s) (idle : p.phase = .idle) :
    (p.enter t x).1.Stems t s := by
  unfold Player.enter
  split
  · exact .inl rfl
  · next inside =>
    obtain ⟨b, found, read, -⟩ := h.read (Nat.not_le.1 inside)
    rw [← routed.standing.offset] at read
    simp only [read]
    split
    · exact .inl idle
    · next phase entered =>
      rw [routed.framed.settings] at entered
      exact .inr (.inr ⟨b, phase, [], found, entered, .here⟩)
    · exact .inl (haltAfter_phase _ x.count)
    · exact .inr (.inl rfl)
    · exact follow_stems (by exact idle) _

/-- A course keeps to what has come about by entering blocks. -/
theorem Course.stems (h : Indexed t x) (course : p.Course t x n os l m q) (routed : p.Routed t x s)
    (stems : p.Stems t s) : q.Stems t s := by
  have keeps : q.Routed t x s ∧ q.Stems t s := by
    refine course.keeps (P := fun p => p.Routed t x s ∧ p.Stems t s) ⟨routed, stems⟩ ?_ ?_
    · rintro p i rest ⟨routed, stems⟩ next
      exact ⟨routed.begin h next, stems.begin routed.framed.settings next⟩
    · rintro p ⟨routed, stems⟩
      have left := (routed.paused 0 p.playing).leave h
      exact ⟨(routed.paused 0 p.playing).enter h, left.enter_stems h leave_idle⟩
  exact keeps.2

theorem Rested.course (rested : p.Rested) (course : p.Course t x n os l m q) : q.Rested :=
  course.keeps rested (fun _ _ _ rested _ => rested) fun p rested =>
    enter_rested (leave_rested (p := { p with remaining := 0 }) rested)

theorem Reachable.stems (h : Indexed t x) (reachable : Reachable t x s p) : p.Stems t s := by
  induction reachable with
  | new => exact .inl rfl
  | play _ ih | stop _ ih => exact ih
  | rewind _ _ | seek _ _ _ => exact .inl rfl
  | advance before advanced ih =>
    obtain ⟨_, spent, -⟩ := advance_eq_some_iff.1 advanced
    obtain ⟨os, l, m, w, course, answer⟩ := spend_closes spent
    have stems := course.stems h (before.routed h) ih
    rcases answer with ⟨k, remaining, -, rfl⟩ | ⟨ordinal, fault, -, -, -, -, faulted, -⟩
    · exact stems
    · exact .inl faulted.phase

/-! ### Blocks that cannot be played -/

/-- Whenever the block of this number is entered it starts these intervals, and then the tape cannot
be played on. -/
def Falters (t : Tape) (x : Index) (s : Settings) (ordinal : Nat) (is : List Interval)
    (fault : Fault) : Prop :=
  ∀ (e : Player) (n : Nat), e.Routed t x s → e.Reaches t ordinal →
    ∃ os m w q, e.Course t x (n + 1) os (heard e.level (is.map .start)) m w ∧
      w.Stumbles t x m ordinal fault ∧
      walk t x m { w with remaining := 0 } = (q, .error fault) ∧ q.route = e.route

theorem falters_packed (h : Indexed t x) {b : Block} {compression : Tzx.Compression}
    {data : Tzx.Span} (found : t.scan.blocks[ordinal]? = some b)
    (records : b.Records compression data) (unknown : compression ≠ .runLength) :
    Falters t x s ordinal [] .packedSamples := by
  obtain ⟨c, pauseMs, rate, stored, rfl, kind⟩ := records
  intro e n routed reaches
  have refused : Entry.ofBlock s t.image (.tzx c) = .error .packedSamples := by
    simp [Entry.ofBlock, Entry.ofKind, kind, unknown]
  obtain ⟨offset, enters⟩ := reaches.enter_eq h routed found
  simp only [refused] at enters
  have stumbles := Stumbles.entry (n := n) reaches.playing reaches.ended enters
  rw [reaches.ordinal] at stumbles
  exact ⟨[], n + 1, e, _, .here, stumbles,
    walk_refused (by exact reaches.playing) (by exact reaches.ended) enters, rfl⟩

/-- A payload that cannot be played on fails behind the intervals that it has started. -/
theorem Stems.falters (h : Indexed t x) (stems : w.Stems t s)
    (failed : w.phase.next s t.image = .error fault) :
    ∃ is, Falters t x s w.ordinal is fault := by
  rcases stems with idle | done | ⟨b, phase, is, found, entered, sounds⟩
  · rw [idle] at failed
    cases failed
  · rw [done] at failed
    cases failed
  · refine ⟨is, fun e n routed reaches => ?_⟩
    obtain ⟨q, m, course, -, still, set, here, same, -, route⟩ :=
      reaches.sounds h routed found entered sounds n
    rw [← set, ← same] at failed
    have stumbles := Stumbles.payload (x := x) (n := m) still failed
    rw [here] at stumbles
    exact ⟨_, m, q, _, course, stumbles, walk_fault (by exact still) (by exact failed), route⟩

/-- The block that is to blame fails behind the same intervals whenever it is entered. -/
theorem Stumbles.falters (h : Indexed t x) (routed : w.Routed t x s) (stems : w.Stems t s)
    (stumbles : w.Stumbles t x n ordinal fault)
    (recording : fault = .packedSamples ∨ fault = .cutShort) :
    ∃ is, Falters t x s ordinal is fault := by
  cases stumbles with
  | payload playing failed =>
    rw [routed.framed.settings] at failed
    exact stems.falters h failed
  | entry playing ended refused =>
    have standing := ((routed.paused 0 w.playing).leave h).standing
    obtain ⟨-, blocked⟩ := enter_sound h standing leave_idle
    obtain ⟨behind, head, route, rfl⟩ := enter_refused refused
    obtain rfl := standing.enter_fault h leave_idle (congrArg Prod.snd refused)
    rw [refused] at blocked
    have packed := blocked _ rfl
    have same := leave_ordinal_due (p := w)
    cases packed with
    | packed found records unknown =>
      rw [show _ = w.leave.ordinal from same] at found
      exact ⟨[], falters_packed h found records unknown⟩
  | limit => rcases recording with same | same <;> cases same

/-- A call that fails has followed its course to where a walk stumbles. -/
theorem Reachable.fails (h : Indexed t x) (reachable : Reachable t x s p)
    (failed : p.Elapses t x ticks q (.error fault)) :
    ∃ os l m w, p.Performs t x os l m w ∧ p.remaining + lasting l ≤ ticks ∧ w.Routed t x s ∧
      w.Stems t s ∧ w.Stumbles t x m q.ordinal fault ∧ q.phase = .idle ∧ q.remaining = 0 ∧
      q.playing = false ∧ q.ranOut = false := by
  obtain ⟨fuel, a, spent, answer⟩ := elapses_iff.1 failed
  obtain ⟨os, l, m, w, course, ⟨k, remaining, rfl, -⟩ | closes⟩ := spend_closes spent
  · cases answer
  obtain ⟨_, _, rfl, playing, within, stumbles, faulted, stopped⟩ := closes
  obtain rfl := Except.error.inj answer
  have routed := reachable.routed h
  have ran : w.ranOut = false := Bool.eq_false_iff.2 fun out =>
    nomatch (reachable.rested.course course out).symm.trans stumbles.playing
  refine ⟨os, l, m, w, course.performs playing, within, course.routed h routed,
    course.stems h routed (reachable.stems h), ?_, faulted.phase, faulted.remaining, stopped,
    faulted.ranOut.trans ran⟩
  rwa [faulted.ordinal]

theorem play_reaches (idle : q.phase = .idle) : q.play.Reaches t q.ordinal := by
  refine ⟨rfl, ?_, ?_⟩
  · rw [show q.play.phase = .idle from idle]
    rfl
  · rw [leave_of_idle (by exact idle)]
    rfl

/-- Played from in front of a block that falters, the tape starts the intervals of the block and
fails behind them, and then it is again where it was. -/
theorem Falters.again {is : List Interval} (h : Indexed t x)
    (falters : Falters t x s q.ordinal is fault) (reachable : Reachable t x s q)
    (stopped : q.playing = false) (idle : q.phase = .idle) (due : q.remaining = 0)
    (ran : q.ranOut = false) :
    let again := heard q.level (is.map .start)
    (∀ a < lasting again, ∃ r, q.play.Elapses t x a r (.ok a)) ∧
    ∀ left, ∃ r, q.play.Elapses t x (lasting again + left) r (.error fault) ∧ r.InStep q := by
  intro again
  obtain ⟨os, m, w, r, course, stumbles, walked, route⟩ :=
    falters q.play 0xFFFFF (reachable.play.routed h) (play_reaches idle)
  have performs : q.play.Performs t x os again m w := course.performs rfl
  have length : q.play.remaining = 0 := due
  refine ⟨fun a early => ?_, fun left => ?_⟩
  · obtain ⟨_, _, _, _, _, r, rest, -, -, -, -, elapses⟩ := performs.early a (by omega)
    exact ⟨_, elapses⟩
  · have fails := performs.stumbles walked left
    rw [length, Nat.zero_add] at fails
    have ⟨_, advanced⟩ := fails
    have routed := (reachable.play.advance advanced).routed h
    obtain ⟨_, _, _, _, -, -, -, -, -, idle', due', -, ran'⟩ := reachable.play.fails h fails
    obtain ⟨_, walked', faulted⟩ := stumbles.walk
    obtain ⟨rfl, -⟩ := Prod.mk.inj (walked.symm.trans walked')
    have abreast :=
      routed.abreast (reachable.routed h) idle' idle stopped.symm faulted.ordinal route
    exact ⟨_, fails, abreast, due'.trans due.symm, ran'.trans ran.symm⟩

/-- A fault stops the tape in front of the block that is to blame, with no time left and the cursor
in step, where it stays while time passes. Played again, the tape enters this block anew; if it
holds a recording that cannot be played, it fails again behind the same intervals. -/
theorem Reachable.faulted (h : Indexed t x) (reachable : Reachable t x s p)
    (failed : p.Elapses t x ticks q (.error fault)) :
    (q.playing = false ∧ q.remaining = 0 ∧ q.ranOut = false) ∧
    (q.ordinal ≤ x.count ∧ q.offset = t.offsetAt q.ordinal ∧ q.Blocked t fault) ∧
    (∃ os l m w, p.Performs t x os l m w ∧ p.remaining + lasting l ≤ ticks ∧
      w.Stumbles t x m q.ordinal fault) ∧
    (∀ more r a, q.Elapses t x more r a ↔ r = q ∧ a = .ok 0) ∧
    q.play.Reaches t q.ordinal ∧
    (fault = .packedSamples ∨ fault = .cutShort → ∃ is : List Interval,
      (∀ e n, Underway t x s e → e.Reaches t q.ordinal → ∃ os m w,
        e.Course t x (n + 1) os (heard e.level (is.map .start)) m w ∧
        w.Stumbles t x m q.ordinal fault) ∧
      let again := heard q.level (is.map .start)
      (∀ a < lasting again, ∃ r, q.play.Elapses t x a r (.ok a)) ∧
      ∀ left, ∃ r, q.play.Elapses t x (lasting again + left) r (.error fault) ∧ r.InStep q) := by
  obtain ⟨os, l, m, w, performs, within, there, stems, stumbles, idle, due, stopped, ran⟩ :=
    reachable.fails h failed
  have ⟨fuel, advanced⟩ := failed
  have reachable' : Reachable t x s q := reachable.advance advanced
  have standing := (reachable'.routed h).standing
  refine ⟨⟨stopped, due, ran⟩, ⟨standing.ordinal_le, standing.offset, ?_⟩,
    ⟨os, l, m, w, performs, within, stumbles⟩, fun more r a => ⟨fun elapses => ?_, ?_⟩,
    play_reaches idle, fun recording => ?_⟩
  · exact (advance_sound h (reachable.standing h) advanced).2 fault rfl
  · obtain ⟨rfl, rfl⟩ := elapses.unique (elapses_stopped stopped more)
    exact ⟨rfl, rfl⟩
  · rintro ⟨rfl, rfl⟩
    exact elapses_stopped stopped more
  · obtain ⟨is, falters⟩ := stumbles.falters h there stems recording
    refine ⟨is, fun e n underway reaches => ?_, falters.again h reachable' stopped idle due ran⟩
    obtain ⟨os, m, w, -, course, stumbles, -⟩ := falters e n (underway.routed h) reaches
    exact ⟨os, m, w, course, stumbles⟩

/-- One sample at 44100 a second, and a zero that announces a long run of which nothing is left. -/
theorem faulted_cut :
    let t : Tape := ⟨.tzx, .ofBytes (Tzx.magic ++ #[1, 20, 0x18, 12, 0, 0, 0, 1, 0, 0x44, 0xAC, 0,
      1, 3, 0, 0, 0, 1, 0]), some (1, 20)⟩
    let x : Index := ⟨#[10], 1⟩
    let p := (new .standard 10).play
    let q := { p with playing := false, behind := 27, level := true, head := 27 }
    Indexed t x ∧ Reachable t x .standard p ∧ p.Elapses t x 100 q (.error .cutShort) ∧
      q.play.Reaches t 0 ∧ (∃ r, q.play.Elapses t x 78 r (.ok 78)) ∧
      ∃ r, q.play.Elapses t x 79 r (.error .cutShort) ∧ r.InStep q := by
  intro t x p q
  have indexed : Indexed t x := ⟨rfl, by decide +kernel⟩
  have reachable : Reachable t x .standard p := .play .new
  have failed : p.Elapses t x 100 q (.error .cutShort) := ⟨3, by decide +kernel⟩
  obtain ⟨-, -, -, -, reaches, again⟩ := Reachable.faulted indexed reachable failed
  obtain ⟨is, -, early, late⟩ := again (.inr rfl)
  generalize lasting (heard q.level (is.map .start)) = n at early late
  let paused : Player :=
    { q with
      playing := true
      phase := .runs ⟨⟨25, 2⟩, 1, 44100, 1, 79, 1⟩
      level := false
      remaining := 1
      head := 26 }
  have sounds : q.play.Elapses t x 78 paused (.ok 78) := ⟨3, by decide +kernel⟩
  have fails : q.play.Elapses t x 79 { q with level := false } (.error .cutShort) :=
    ⟨3, by decide +kernel⟩
  have long : 78 < n := by
    by_contra short
    obtain ⟨r, elapses, -⟩ := late (78 - n)
    rw [Nat.add_sub_cancel' (Nat.not_lt.1 short)] at elapses
    cases (sounds.unique elapses).2
  have short : n ≤ 79 := by
    by_contra long
    obtain ⟨r, elapses⟩ := early 79 (Nat.not_le.1 long)
    cases (fails.unique elapses).2
  obtain rfl : n = 79 := Nat.le_antisymm short long
  obtain ⟨r, elapses, inStep⟩ := late 0
  exact ⟨indexed, reachable, failed, reaches, ⟨_, sounds⟩, r, elapses, inStep⟩

end Cassette.Player
