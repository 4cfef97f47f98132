import Mathlib.Control.Monad.Basic
import Cassette.Player
import Cassette.Proofs.Payload
import Cassette.Proofs.Row
import Cassette.Proofs.Turn

/-! The cursor keeps in step with the tape. `Player.Standing` is what holds of a player in
every state it can come to: the offset is that of the block with the ordinal, the payload
being played is that of this block, and the loop and the call that are open lead back to
blocks of the tape. A loop opened by the last block is the one exception; the tape then
runs out before anything can close it. Main statement: `reachable_standing`, by a step
lemma for each operation and an induction on the edges of a call. -/

namespace Cassette

/-- The block is a recording whose samples are packed in this way in this payload. -/
def Block.Records (b : Block) (compression : Tzx.Compression) (data : Tzx.Span) : Prop :=
  ∃ c pauseMs rate stored, b = .tzx c ∧ c.kind = .csw pauseMs rate compression stored data

/-! ### Phases -/

namespace Signal

/-- A phase plays the payload of a block, from inside the image. -/
def Phase.Within (image : Image) (b : Block) : Phase → Prop
  | .pilot _ _ _ _ c | .sync2 _ c | .data c =>
    b.payload? = some c.bits.data ∧ c.bits.Inside image
  | .samples bits _ _ => b.payload? = some bits.data ∧ bits.Inside image
  | .runs c => b.Records .runLength c.data ∧ c.Inside image
  | .idle | .tone .. | .pulses _ | .pause _ | .done => True

variable {image : Image} {b : Block} {s : Settings} {phase : Phase}

theorem takePause_within {ticks : Nat} {i : Interval} {rest : Phase}
    (h : Phase.takePause ticks = some (i, rest)) : rest.Within image b := by
  simp only [Phase.takePause] at h
  split at h
  · simp at h
  · obtain ⟨-, rfl⟩ := Prod.mk.inj (Option.some.inj h)
    trivial

theorem given_within {given : Interval} {rest : Phase} (within : rest.Within image b)
    (i : Interval) (rest' : Phase)
    (h : (.ok (some (given, rest)) : Except Fault _) = .ok (some (i, rest'))) :
    rest'.Within image b := by
  obtain ⟨-, rfl⟩ := Prod.mk.inj (Option.some.inj (Except.ok.inj h))
  exact within

/-- Playing on stays in the payload, and only packed samples that are cut short are a fault. -/
theorem Phase.next_within (whole : image.Whole) (within : phase.Within image b) :
    (∀ i rest, phase.next s image = .ok (some (i, rest)) → rest.Within image b) ∧
    ∀ fault, phase.next s image = .error fault → fault = .cutShort ∧
      ∃ c, phase = .runs c ∧ CutRun image c.data := by
  cases phase with
  | idle | done => exact ⟨fun _ _ h => (nomatch h), nofun⟩
  | pilot width left s1 s2 c =>
    cases left with
    | zero => exact ⟨given_within within, nofun⟩
    | succ left => exact ⟨given_within within, nofun⟩
  | sync2 width c => exact ⟨given_within within, nofun⟩
  | data c =>
    obtain ⟨payload, inside⟩ := within
    rcases c.next_cases whole inside with ⟨-, ended⟩ | ⟨w, c', -, some, inside', same, -⟩
    · simp only [next, ended]
      exact ⟨fun i rest h => takePause_within (Except.ok.inj h), nofun⟩
    · simp only [next, some]
      exact ⟨given_within ⟨same ▸ payload, inside'⟩, nofun⟩
  | tone width left =>
    cases left with
    | zero => exact ⟨fun _ _ h => (nomatch h), nofun⟩
    | succ left => exact ⟨given_within trivial, nofun⟩
  | pulses widths =>
    cases widths with
    | nil => exact ⟨fun _ _ h => (nomatch h), nofun⟩
    | cons width widths => exact ⟨given_within trivial, nofun⟩
  | samples bits ticksPerSample pauseMs =>
    obtain ⟨payload, inside⟩ := within
    rcases bits.next_cases whole inside with ⟨-, ended⟩ | ⟨level, bits', -, some, inside', same⟩
    · simp only [next, ended]
      exact ⟨fun i rest h => takePause_within (Except.ok.inj h), nofun⟩
    · simp only [next, some]
      exact ⟨given_within ⟨same ▸ payload, inside'⟩, nofun⟩
  | runs c =>
    obtain ⟨block, inside⟩ := within
    rcases c.next_cases whole inside s.ticksPerSecond with
      ended | ⟨w, c', some, inside', same⟩ | ⟨cut, short⟩
    · simp only [next, ended]
      exact ⟨fun i rest h => takePause_within (Except.ok.inj h), nofun⟩
    · simp only [next, some]
      exact ⟨given_within ⟨same ▸ block, inside'⟩, nofun⟩
    · simp only [next, cut]
      exact ⟨nofun, by rintro fault ⟨⟩; exact ⟨rfl, c, rfl, short⟩⟩
  | pause ticks => exact ⟨fun i rest h => takePause_within (Except.ok.inj h), nofun⟩

theorem Phase.position_le (within : phase.Within image b) {position : Nat}
    (h : phase.position? = some position) : position ≤ image.length := by
  have bits_le {c : BitCursor} (inside : c.Inside image) : c.position ≤ image.length :=
    Nat.le_trans (Nat.add_le_add_left inside.read _) inside.fits
  cases phase with
  | pilot _ _ _ _ c | sync2 _ c | data c | samples c =>
    obtain rfl := Option.some.inj h
    exact bits_le within.2
  | runs c =>
    obtain rfl := Option.some.inj h
    exact Nat.le_trans (Nat.add_le_add_left within.2.read.le _) within.2.fits
  | _ => exact nomatch h

theorem rom_within {flag : UInt8} {pauseMs : UInt16} {data : Tzx.Span}
    (payload : b.payload? = some data) (fits : data.stop ≤ image.length) :
    (Phase.rom s flag pauseMs data).Within image b :=
  ⟨payload, BitCursor.inside_new fits 8⟩

theorem Entry.ofBlock_within (whole : image.Whole)
    (fits : ∀ data, b.payload? = some data → data.stop ≤ image.length) :
    (∀ phase, Entry.ofBlock s image b = .ok (.signal phase) → phase.Within image b) ∧
    ∀ fault, Entry.ofBlock s image b = .error fault → fault = .packedSamples ∧
      ∃ compression data, b.Records compression data ∧ compression ≠ .runLength := by
  cases b with
  | tap block =>
    simp only [Entry.ofBlock]
    cases block.flag with
    | none => exact ⟨by rintro phase ⟨⟩; trivial, fun _ h => nomatch h⟩
    | some flag => exact ⟨by rintro phase ⟨⟩; exact rom_within rfl (fits _ rfl), nofun⟩
  | tzx block =>
    obtain ⟨offset, size, kind⟩ := block
    cases kind with
    | standardSpeed pauseMs data =>
      simp only [Entry.ofBlock, Entry.ofKind]
      split
      · exact ⟨by rintro phase ⟨⟩; trivial, fun _ h => nomatch h⟩
      · next long =>
        have stop : data.offset + data.length ≤ image.length := fits data rfl
        rw [Image.byteAt_eq_ok whole (show data.offset < image.length by omega)]
        exact ⟨by rintro phase ⟨⟩; exact rom_within rfl (fits _ rfl), nofun⟩
    | turboSpeed pilotPulse sync1 sync2 zeroPulse onePulse pilotLength usedBits pauseMs data =>
      exact ⟨by rintro phase ⟨⟩; exact ⟨rfl, BitCursor.inside_new (fits _ rfl) _⟩, nofun⟩
    | pureData zeroPulse onePulse usedBits pauseMs data =>
      exact ⟨by rintro phase ⟨⟩; exact ⟨rfl, BitCursor.inside_new (fits _ rfl) _⟩, nofun⟩
    | directRecording ticksPerSample pauseMs usedBits data =>
      exact ⟨by rintro phase ⟨⟩; exact ⟨rfl, BitCursor.inside_new (fits _ rfl) _⟩, nofun⟩
    | csw pauseMs rate compression stored data =>
      simp only [Entry.ofBlock, Entry.ofKind]
      split
      · next packed =>
        refine ⟨nofun, ?_⟩
        rintro fault ⟨⟩
        exact ⟨rfl, compression, data, ⟨_, pauseMs, rate, stored, rfl, rfl⟩, packed⟩
      · next runs =>
        obtain rfl := Decidable.not_not.1 runs
        split
        · exact ⟨by rintro phase ⟨⟩; trivial, fun _ h => nomatch h⟩
        · refine ⟨?_, nofun⟩
          rintro phase ⟨⟩
          exact ⟨⟨_, pauseMs, rate, stored, rfl, rfl⟩, fits _ rfl, .first⟩
    | pause ms =>
      simp only [Entry.ofBlock, Entry.ofKind]
      split
      · exact ⟨fun _ h => (nomatch h), fun _ h => nomatch h⟩
      · exact ⟨by rintro phase ⟨⟩; trivial, fun _ h => nomatch h⟩
    | pureTone | pulseSequence => exact ⟨by rintro phase ⟨⟩; trivial, fun _ h => nomatch h⟩
    | _ => exact ⟨fun _ h => (nomatch h), fun _ h => nomatch h⟩

end Signal

/-! ### Players -/

open Signal

namespace Player

variable {t : Tape} {x : Index} {p q : Player}

def Past (x : Index) (p : Player) : Prop :=
  p.ordinal = x.count ∧ p.phase = .idle ∨ p.ordinal + 1 = x.count ∧ p.phase = .done

theorem Past.finished (past : p.Past x) : p.phase = .idle ∨ p.phase = .done :=
  past.imp And.right And.right

/-- The cursor stands where the tape has its block, what is played is the payload of that
block, and the open loop and call lead back to blocks. -/
structure Standing (t : Tape) (x : Index) (p : Player) : Prop where
  start : p.start = t.start
  ordinal_le : p.ordinal ≤ x.count
  offset : p.offset = t.offsetAt p.ordinal
  behind : p.phase ≠ .idle → p.behind = t.offsetAt (p.ordinal + 1)
  within : p.phase ≠ .idle →
    ∃ b, t.scan.blocks[p.ordinal]? = some b ∧ p.phase.Within t.image b
  loop : ∀ frame, p.route.loop? = some frame → frame.start + 1 < x.count ∨ p.Past x
  call : ∀ frame, p.route.call? = some frame → frame.caller < x.count

/-- The faults that can stop a player, each at the block that is to blame: a circle of
blocks, a recording packed in an unknown way, or a recording with a long run cut short. -/
inductive Blocked (t : Tape) (q : Player) : Fault → Prop
  | endless : Blocked t q (.endlessWalk q.ordinal)
  | packed {b : Block} {compression : Tzx.Compression} {data : Tzx.Span}
      (found : t.scan.blocks[q.ordinal]? = some b) (records : b.Records compression data)
      (unknown : compression ≠ .runLength) : Blocked t q .packedSamples
  | cut {b : Block} {data : Tzx.Span} (found : t.scan.blocks[q.ordinal]? = some b)
      (records : b.Records .runLength data) (short : CutRun t.image data) : Blocked t q .cutShort

/-- A step that keeps the cursor in step and fails only in these ways. -/
def Sound (t : Tape) (x : Index) (r : Player × Except Fault Unit) : Prop :=
  r.1.Standing t x ∧ ∀ fault, r.2 = .error fault → r.1.Blocked t fault

theorem Standing.sound (h : p.Standing t x) : Sound t x (p, .ok ()) := ⟨h, nofun⟩

theorem standing_seek (start : p.start = t.start) {ordinal : Nat} (inside : ordinal ≤ x.count) :
    (p.seek ordinal (t.offsetAt ordinal)).Standing t x where
  start := start
  ordinal_le := inside
  offset := rfl
  behind idle := absurd rfl idle
  within idle := absurd rfl idle
  loop := nofun
  call := nofun

theorem standing_rewind (h : Indexed t x) (start : p.start = t.start) : p.rewind.Standing t x := by
  have := standing_seek (p := p) start (Nat.zero_le x.count)
  rwa [h.offsetAt_zero, ← start] at this

theorem standing_runOut (h : Indexed t x) (start : p.start = t.start) : p.runOut.Standing t x := by
  obtain ⟨start, ordinal_le, offset, behind, within, loop, call⟩ := standing_rewind h start
  exact ⟨start, ordinal_le, offset, behind, within, loop, call⟩

structure Entering (t : Tape) (x : Index) (p : Player) : Prop where
  standing : p.Standing t x
  idle : p.phase = .idle
  inside : p.ordinal < x.count
  behind : p.behind = t.offsetAt (p.ordinal + 1)

/-- In front of a block there is a block for every open loop to go back to. -/
theorem Standing.route_inside (h : p.Standing t x) (idle : p.phase = .idle)
    (inside : p.ordinal < x.count) : p.route.Inside x.count where
  loop frame open_ := by
    refine (h.loop frame open_).resolve_right ?_
    rintro (⟨ends, -⟩ | ⟨-, done⟩)
    · exact Nat.ne_of_lt inside ends
    · rw [idle] at done
      contradiction
  call := h.call

theorem Entering.play (e : Entering t x p) {b : Block} {phase : Phase} (level : Bool)
    (found : t.scan.blocks[p.ordinal]? = some b) (within : phase.Within t.image b) :
    Standing t x { p with phase, level } where
  start := e.standing.start
  ordinal_le := e.standing.ordinal_le
  offset := e.standing.offset
  behind _ := e.behind
  within _ := ⟨b, found, within⟩
  loop frame open_ := .inl ((e.standing.route_inside e.idle e.inside).loop frame open_)
  call := e.standing.call

theorem Entering.haltAfter (h : Indexed t x) (e : Entering t x p) :
    (p.haltAfter x.count).Standing t x := by
  have route := e.standing.route_inside e.idle e.inside
  simp only [Player.haltAfter]
  split
  · next more =>
    exact ⟨e.standing.start, Nat.le_of_lt more, e.behind, nofun, nofun,
      fun frame open_ => .inl (route.loop frame open_), route.call⟩
  · exact ⟨e.standing.start, Nat.zero_le _, e.standing.start.trans h.offsetAt_zero.symm, nofun,
      nofun, nofun, nofun⟩

theorem Entering.follow (h : Indexed t x) (e : Entering t x p) {b : Block}
    (found : t.scan.blocks[p.ordinal]? = some b) {turn : Turn} {route : Route}
    (sound : Route.Sound p.ordinal x.count turn route) :
    Sound t x ({ p with route }.follow t x turn) := by
  cases turn with
  | next =>
    refine Standing.sound ⟨e.standing.start, e.standing.ordinal_le, e.standing.offset,
      fun _ => e.behind, fun _ => ⟨b, found, trivial⟩, fun frame open_ => ?_, sound.call⟩
    rcases sound.loop frame open_ with inside | ⟨-, here⟩
    · exact .inl inside
    · have := e.inside
      rcases Nat.lt_or_ge (frame.start + 1) x.count with inside | last
      · exact .inl inside
      · exact .inr (.inr ⟨show p.ordinal + 1 = x.count by omega, rfl⟩)
  | goTo target =>
    have inside := sound.goTo target rfl
    simp only [Player.follow, h.locate_eq inside]
    refine Standing.sound ⟨e.standing.start, Nat.le_of_lt inside, rfl, nofun, nofun,
      fun frame open_ => .inl ?_, sound.call⟩
    exact (sound.loop frame open_).resolve_right nofun
  | stop =>
    have loops : ∀ frame, route.loop? = some frame → frame.start + 1 < x.count :=
      fun frame open_ => (sound.loop frame open_).resolve_right nofun
    have entering : Entering t x { p with route } :=
      ⟨⟨e.standing.start, e.standing.ordinal_le, e.standing.offset, e.standing.behind,
        e.standing.within, fun frame open_ => .inl (loops frame open_), sound.call⟩,
        e.idle, e.inside, e.behind⟩
    exact (entering.haltAfter h).sound
  | finish => exact (standing_runOut h e.standing.start).sound

/-- Whatever a block does to the route, it leads to blocks of the tape. -/
theorem Standing.turn_sound (standing : p.Standing t x) (idle : p.phase = .idle)
    (inside : p.ordinal < x.count) (b : Block) :
    Route.Sound p.ordinal x.count (p.turn x b).1 (p.turn x b).2 := by
  have route := standing.route_inside idle inside
  cases b with
  | tap _ => exact route.sound nofun
  | tzx c => exact Route.take_sound route inside c.kind _

theorem enter_sound (h : Indexed t x) (standing : p.Standing t x) (idle : p.phase = .idle) :
    Sound t x (p.enter t x) := by
  rw [enter]
  split
  · exact (standing_runOut h standing.start).sound
  · next inside =>
    have inside := Nat.not_le.1 inside
    obtain ⟨b, found, read, next⟩ := h.read inside
    rw [← standing.offset] at read next
    simp only [read]
    have route := standing.route_inside idle inside
    have entering (head : Nat) : Entering t x { p with behind := p.offset + b.size, head } :=
      ⟨⟨standing.start, standing.ordinal_le, standing.offset, fun playing => absurd idle playing,
        fun playing => absurd idle playing, fun frame open_ => .inl (route.loop frame open_),
        standing.call⟩, idle, inside, next.symm⟩
    have fits := Tape.payload_fits h.whole read
    obtain ⟨plays, refuses⟩ := Entry.ofBlock_within (s := p.settings) h.whole fits
    split
    · next fault failed =>
      refine ⟨(entering _).standing, ?_⟩
      rintro _ ⟨⟩
      obtain ⟨rfl, compression, data, records, unknown⟩ := refuses fault failed
      exact .packed found records unknown
    · next phase entered => exact ((entering _).play p.level found (plays phase entered)).sound
    · exact ((entering _).haltAfter h).sound
    · next level _ =>
      have silent : Phase.done.Within t.image b := trivial
      exact ((entering _).play level found silent).sound
    · exact (entering _).follow h found (standing.turn_sound idle inside b)

theorem leave_idle : p.leave.phase = .idle := by
  simp only [leave]
  split <;> first | assumption | rfl

theorem leave_of_idle (idle : p.phase = .idle) : p.leave = p := by
  simp only [leave, idle]

theorem leave_of_playing (playing : p.phase ≠ .idle) :
    p.leave = { p with ordinal := p.ordinal + 1, offset := p.behind, phase := .idle } := by
  simp only [leave]

theorem Standing.leave (h : Indexed t x) (standing : p.Standing t x) : p.leave.Standing t x := by
  by_cases idle : p.phase = .idle
  · rwa [leave_of_idle idle]
  · obtain ⟨b, found, -⟩ := standing.within idle
    have inside : p.ordinal < x.count := (h.read_of_found found).1
    rw [leave_of_playing idle]
    refine ⟨standing.start, inside, standing.behind idle, nofun, nofun, ?_, standing.call⟩
    intro frame open_
    refine (standing.loop frame open_).imp_right fun past => .inl ⟨?_, rfl⟩
    exact (past.resolve_left fun here => idle here.2).1

theorem Standing.begin {i : Interval} {rest : Phase} (standing : p.Standing t x)
    (playing : p.phase ≠ .idle) (unfinished : p.phase ≠ .done)
    (within : ∀ b, p.phase.Within t.image b → rest.Within t.image b) :
    (p.begin i rest).Standing t x where
  start := standing.start
  ordinal_le := standing.ordinal_le
  offset := standing.offset
  behind _ := standing.behind playing
  within _ := (standing.within playing).imp fun b h => ⟨h.1, within b h.2⟩
  loop frame open_ := .inl <| (standing.loop frame open_).resolve_right fun past =>
    past.finished.elim playing unfinished
  call := standing.call

theorem Standing.abandon (standing : p.Standing t x) (playing : p.phase ≠ .idle)
    (unfinished : p.phase ≠ .done) (length : Nat) : (p.abandon length).Standing t x where
  start := standing.start
  ordinal_le := standing.ordinal_le
  offset := standing.offset
  behind idle := absurd rfl idle
  within idle := absurd rfl idle
  loop frame open_ := .inl <| (standing.loop frame open_).resolve_right fun past =>
    past.finished.elim playing unfinished
  call := standing.call

/-- The next interval of a block under way starts with the cursor in step, and a fault in its
payload leaves the cursor on the block. -/
theorem Standing.next_sound (h : Indexed t x) (standing : p.Standing t x) :
    (∀ i rest, p.phase.next p.settings t.image = .ok (some (i, rest)) →
      (p.begin i rest).Standing t x) ∧
    ∀ fault, p.phase.next p.settings t.image = .error fault →
      Sound t x (p.abandon t.length, .error fault) := by
  by_cases playing : p.phase = .idle
  · rw [playing]
    exact ⟨fun _ _ h => (nomatch h), fun _ h => nomatch h⟩
  by_cases unfinished : p.phase = .done
  · rw [unfinished]
    exact ⟨fun _ _ h => (nomatch h), fun _ h => nomatch h⟩
  refine ⟨fun i rest starts => ?_, fun fault failed => ⟨?_, ?_⟩⟩
  · exact standing.begin playing unfinished fun b within =>
      (Phase.next_within h.whole within).1 i rest starts
  · exact standing.abandon playing unfinished _
  · rintro _ ⟨⟩
    obtain ⟨b, found, within⟩ := standing.within playing
    obtain ⟨rfl, c, runs, short⟩ := (Phase.next_within h.whole within).2 fault failed
    rw [runs] at within
    exact .cut found within.1 short

theorem walk_sound (h : Indexed t x) (budget : Nat) (standing : p.Standing t x) :
    Sound t x (walk t x budget p) := by
  induction budget generalizing p with
  | zero =>
    rw [walk]
    split
    · split
      · next fault failed => exact (standing.next_sound h).2 fault failed
      · next i rest starts => exact ((standing.next_sound h).1 i rest starts).sound
      · refine ⟨standing.leave h, ?_⟩
        rintro _ ⟨⟩
        exact .endless
    · exact standing.sound
  | succ budget ih =>
    rw [walk]
    split
    · split
      · next fault failed => exact (standing.next_sound h).2 fault failed
      · next i rest starts => exact ((standing.next_sound h).1 i rest starts).sound
      · have entered := enter_sound h (standing.leave h) leave_idle
        split
        · next q fault outcome => rwa [outcome] at entered
        · next q outcome =>
          rw [outcome] at entered
          exact ih entered.1
    · exact standing.sound

/-! ### Calls -/

theorem Standing.paused (standing : p.Standing t x) (remaining : Nat) (playing : Bool) :
    Standing t x { p with remaining, playing } :=
  ⟨standing.start, standing.ordinal_le, standing.offset, standing.behind, standing.within,
    standing.loop, standing.call⟩

theorem Standing.play (standing : p.Standing t x) : p.play.Standing t x :=
  ⟨standing.start, standing.ordinal_le, standing.offset, standing.behind, standing.within,
    standing.loop, standing.call⟩

theorem Blocked.stop {fault : Fault} (blocked : p.Blocked t fault) : p.stop.Blocked t fault := by
  cases blocked with
  | endless => exact .endless
  | packed found records unknown => exact .packed found records unknown
  | cut found records short => exact .cut found records short

theorem spend_sound (h : Indexed t x) {fuel left : Nat} {r : Except Fault Nat}
    (standing : p.Standing t x) (spent : spend t x fuel p left = some (q, r)) :
    q.Standing t x ∧ ∀ fault, r = .error fault → q.Blocked t fault := by
  induction fuel generalizing p left with
  | zero => simp [spend] at spent
  | succ fuel ih =>
    rw [spend] at spent
    split at spent
    · split at spent
      · obtain ⟨rfl, rfl⟩ := Prod.mk.inj (Option.some.inj spent)
        exact ⟨standing.paused _ _, by simp⟩
      · have walked := walk_sound h walkLimit (standing.paused 0 p.playing)
        split at spent
        · next q' fault outcome =>
          rw [startInterval] at outcome
          rw [outcome] at walked
          obtain ⟨rfl, rfl⟩ := Prod.mk.inj (Option.some.inj spent)
          refine ⟨walked.1.paused _ _, ?_⟩
          rintro _ ⟨⟩
          exact (walked.2 fault rfl).stop
        · next q' outcome =>
          rw [startInterval] at outcome
          rw [outcome] at walked
          exact ih walked.1 spent
    · obtain ⟨rfl, rfl⟩ := Prod.mk.inj (Option.some.inj spent)
      exact ⟨standing, by simp⟩

theorem advance_sound (h : Indexed t x) {fuel ticks : Nat} {r : Except Fault Nat}
    (standing : p.Standing t x) (advanced : p.advance t x fuel ticks = some (q, r)) :
    q.Standing t x ∧ ∀ fault, r = .error fault → q.Blocked t fault := by
  obtain ⟨⟨q', s⟩, spent, h'⟩ := Option.map_eq_some_iff.1 advanced
  obtain ⟨rfl, rfl⟩ := Prod.mk.inj h'
  obtain ⟨standing, blocked⟩ := spend_sound h standing spent
  refine ⟨standing, fun fault failed => blocked fault ?_⟩
  cases s with
  | error _ => exact failed
  | ok _ => exact nomatch failed

/-! ### Every state -/

/-- The players that come about on a tape: fresh ones, and what the operations make of them. -/
inductive Reachable (t : Tape) (x : Index) (s : Settings) : Player → Prop
  | new : Reachable t x s (.new s t.start)
  | play {p : Player} (h : Reachable t x s p) : Reachable t x s p.play
  | stop {p : Player} (h : Reachable t x s p) : Reachable t x s p.stop
  | rewind {p : Player} (h : Reachable t x s p) : Reachable t x s p.rewind
  | seek {p : Player} {ordinal : Nat} (h : Reachable t x s p) (inside : ordinal < x.count) :
      Reachable t x s (p.seek ordinal (t.offsetAt ordinal))
  | advance {p q : Player} {fuel ticks : Nat} {r : Except Fault Nat} (h : Reachable t x s p)
      (advanced : p.advance t x fuel ticks = some (q, r)) : Reachable t x s q

theorem standing_new (h : Indexed t x) (s : Settings) : (new s t.start).Standing t x where
  start := rfl
  ordinal_le := Nat.zero_le _
  offset := h.offsetAt_zero.symm
  behind idle := absurd rfl idle
  within idle := absurd rfl idle
  loop := nofun
  call := nofun

theorem Reachable.standing (h : Indexed t x) {s : Settings} (reachable : Reachable t x s p) :
    p.Standing t x := by
  induction reachable with
  | new => exact standing_new h s
  | play _ ih => exact ih.play
  | stop _ ih => exact ih.paused _ _
  | rewind _ ih => exact standing_rewind h ih.start
  | seek _ inside ih => exact standing_seek ih.start (Nat.le_of_lt inside)
  | advance _ advanced ih => exact (advance_sound h ih advanced).1

theorem Standing.position_le (h : Indexed t x) (standing : p.Standing t x) :
    p.position ≤ t.length := by
  rw [position]
  cases at_payload : p.phase.position? with
  | none =>
    rw [Option.getD_none, standing.offset]
    exact h.offsetAt_le p.ordinal
  | some position =>
    have playing : p.phase ≠ .idle := by
      intro idle
      rw [idle] at at_payload
      contradiction
    obtain ⟨b, -, within⟩ := standing.within playing
    exact Phase.position_le within at_payload

/-- On any tape that can be indexed, in any state a player can come to, the cursor stands on
a block of the tape or at its end, the offset is that of this block, the block behind it is
where a block being played ends, and the position is inside the tape. Time can then be let
pass with only three faults: the player is in a circle of blocks, or at a recording packed
in an unknown way, or at one with a long run cut short. -/
theorem reachable_standing (h : Indexed t x) {s : Settings} (reachable : Reachable t x s p) :
    p.ordinal ≤ x.count ∧ p.offset = t.offsetAt p.ordinal ∧
    (p.phase ≠ .idle → p.behind = t.offsetAt (p.ordinal + 1)) ∧ p.position ≤ t.length ∧
    ∀ fuel ticks q fault, p.advance t x fuel ticks = some (q, .error fault) →
      q.Blocked t fault := by
  have standing := reachable.standing h
  exact ⟨standing.ordinal_le, standing.offset, standing.behind, standing.position_le h,
    fun fuel ticks q fault advanced => (advance_sound h standing advanced).2 fault rfl⟩

/-- A recording of one byte, a zero that announces a long run. -/
theorem reachable_standing_cut :
    let t : Tape := ⟨.tzx, .ofBytes (Tzx.magic ++ #[1, 20, 0x18, 11, 0, 0, 0, 0, 0, 0x20, 0xA1,
      0x07, 1, 0, 0, 0, 0, 0]), some (1, 20)⟩
    let x : Index := ⟨#[10], 1⟩
    let p := (new .standard 10).play
    let q := { p with playing := false, behind := 26, head := 26 }
    Indexed t x ∧ Reachable t x .standard p ∧ p.advance t x 3 100 = some (q, .error .cutShort) ∧
      q.Blocked t .cutShort := by
  intro t x p q
  have indexed : Indexed t x := ⟨rfl, by decide +kernel⟩
  have reachable : Reachable t x .standard p := .play .new
  have advanced : p.advance t x 3 100 = some (q, .error .cutShort) := by decide +kernel
  have ⟨_, _, _, _, blocked⟩ := reachable_standing indexed reachable
  exact ⟨indexed, reachable, advanced, blocked 3 100 q .cutShort advanced⟩

end Player

end Cassette
