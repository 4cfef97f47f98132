import Mathlib.Algebra.Ring.Nat
import Cassette.Proofs.Playback
import Cassette.Proofs.Splice

/-! How long a TAP image lasts. What a payload sounds like is written down from its bytes and
the settings alone (`Signal.sounding`), and the blocks of a TAP image do just that to the line
(`Block.beats_tap`). A tape that is played in any number of calls of `advance` runs out when they
have lasted as long as its intervals, and the counts then add up to their sum
(`Plays.calls`). Main statement: `plays_payloads`, both for the payloads of a TAP image. -/

namespace Cassette

open Signal
open Tzx (Span)

namespace Signal

/-- Eight bits, the most significant first, and two pulses for each. -/
def bytePulses (t : Timings) (byte : UInt8) : List Interval :=
  (Bits.bitsOf byte).flatMap fun one =>
    List.replicate 2 (pulse (if one then t.onePulse else t.zeroPulse).toNat)

/-- What a payload sounds like on a TAP tape: pilot pulses, of which there are more before a
header, two sync pulses, the bits, and a pause in which the line is low. No payload, no sound. -/
def sounding (s : Settings) : List UInt8 → List Interval
  | [] => []
  | flag :: rest =>
    let t := s.timings
    let pilots := if flag < 0x80 then t.headerPilot else t.dataPilot
    List.replicate pilots.toNat (pulse t.pilotPulse.toNat) ++
      [pulse t.sync1.toNat, pulse t.sync2.toNat] ++
      (flag :: rest).flatMap (bytePulses t) ++
      silence (s.blockPauseMs.toNat * s.ticksPerSecond / 1000)

theorem bitPulses_eq {image : Image} {data : Span} (whole : image.Whole)
    (inside : data.stop ≤ image.length) (t : Timings) :
    bitPulses image t.zeroPulse t.onePulse 8 data =
      (image.slice data.offset data.length).toList.flatMap (bytePulses t) := by
  rw [bitPulses, payloadBits_eq whole inside, DataCursor.pulsesOf, List.flatMap_assoc,
    List.map_flatMap]
  simp only [List.map_flatMap, List.map_replicate, DataCursor.widthOf]
  rfl

theorem sounding_eq {image : Image} {data : Span} (whole : image.Whole)
    (inside : data.stop ≤ image.length) (some : 0 < data.length) (s : Settings) :
    sounding s (image.slice data.offset data.length).toList =
      romIntervals s image s.blockPauseMs data := by
  have bits := bitPulses_eq whole inside s.timings
  obtain ⟨n, length⟩ := Nat.exists_eq_add_one_of_ne_zero (Nat.ne_of_gt some)
  have bytes : (image.slice data.offset data.length).toList =
      image.byte data.offset :: (List.range' 1 n).map fun i => image.byte (data.offset + i) := by
    rw [Image.toList_slice whole inside, length, List.range'_succ]
    rfl
  rw [bytes] at bits ⊢
  simp only [sounding, romIntervals, leader, bits, pauseOf]

end Signal

namespace Block

variable {t : Tape} {o : Nat} {b : Block}

/-- A block of a TAP image does to the line what its payload sounds like. -/
theorem beats_tap (whole : t.image.Whole) (tap : t.format = .tap)
    (read : t.blockAt? o = .ok (some b)) (s : Settings) :
    ∃ payload, b.payloadIn t.image = some payload ∧
      b.beats s t.image = (sounding s payload.toList).map .start := by
  obtain ⟨c, -, rfl⟩ := (Tape.blockAt?_tap tap).1 read
  let data : Span := ⟨c.payloadStart, c.length.toNat⟩
  have inside : data.stop ≤ t.image.length := Tape.payload_fits whole read data rfl
  refine ⟨t.image.slice data.offset data.length, rfl, ?_⟩
  by_cases empty : c.length = 0
  · have none : (t.image.slice data.offset data.length).toList = [] := by
      rw [Image.toList_slice whole inside, show data.length = 0 by simp [data, empty]]
      rfl
    rw [none, beats, if_pos empty]
    rfl
  · have some : 0 < data.length := Nat.pos_of_ne_zero fun h => empty (UInt16.toNat_inj.1 h)
    rw [sounding_eq whole inside some, beats, if_neg empty]

end Block

namespace Player

variable {t : Tape} {x : Index} {p q : Player}

/-! ### Running out -/

def Rested (p : Player) : Prop := p.ranOut = true → p.playing = false

theorem enter_rested (h : p.Rested) : (p.enter t x).1.Rested := by
  have after (p : Player) (count : Nat) : (p.haltAfter count).Rested := by
    intro _
    unfold haltAfter
    split <;> rfl
  unfold enter
  split
  · exact fun _ => rfl
  · split
    · exact h
    · exact h
    · next b _ =>
      simp only
      split
      · exact h
      · exact h
      · exact after _ _
      · exact h
      · unfold follow
        split
        · exact h
        · simp only
          split <;> exact h
        · exact after _ _
        · exact fun _ => rfl

theorem leave_rested (h : p.Rested) : p.leave.Rested := by
  unfold leave
  split <;> exact h

theorem walk_rested {budget : Nat} (h : p.Rested) : (walk t x budget p).1.Rested := by
  fun_induction walk t x budget p with
  | case1 => exact h
  | case2 => exact h
  | case3 => exact leave_rested h
  | case4 p _ _ _ q fault failed =>
    have entered : (p.leave.enter t x).1.Rested := enter_rested (leave_rested h)
    rw [failed] at entered
    exact entered
  | case5 p _ _ _ q went ih =>
    have entered : (p.leave.enter t x).1.Rested := enter_rested (leave_rested h)
    rw [went] at entered
    exact ih entered
  | case6 => exact h

theorem spend_rested {fuel left : Nat} {r : Except Fault Nat} (h : p.Rested)
    (spent : spend t x fuel p left = some (q, r)) : q.Rested := by
  induction fuel generalizing p left with
  | zero => simp [spend] at spent
  | succ fuel ih =>
    cases spend_cases spent with
    | stopped => exact h
    | early => exact h
    | fault => exact fun _ => rfl
    | edge playing late walked on =>
      have rested : (walk t x walkLimit { p with remaining := 0 }).1.Rested := walk_rested h
      rw [← startInterval, walked] at rested
      exact ih rested on

/-! ### Any number of calls -/

/-- Calls of `advance`, one after the other, each for some ticks; all return a count, and the
counts add up to `played`. -/
inductive Calls (t : Tape) (x : Index) : Player → List Nat → Player → (played : Nat) → Prop
  | nil (p : Player) : Calls t x p [] p 0
  | cons {p q r : Player} {ticks n played : Nat} {rest : List Nat}
      (first : p.Elapses t x ticks q (.ok n)) (on : Calls t x q rest r played) :
      Calls t x p (ticks :: rest) r (n + played)

/-- A time without fault has parts without fault, and their counts add up. -/
theorem Elapses.parts {a b n : Nat} (h : p.Elapses t x (a + b) q (.ok n)) :
    ∃ q₁ m k, p.Elapses t x a q₁ (.ok m) ∧ q₁.Elapses t x b q (.ok k) ∧ n = m + k := by
  obtain ⟨fuel, s, spent, -⟩ := elapses_iff.1 h
  obtain ⟨q₁, s₁, first, ⟨q₂, s₂⟩, second⟩ := spend_parts spent
  have h₁ : p.Elapses t x a q₁ _ := elapses_iff.2 ⟨fuel, s₁, first, rfl⟩
  have h₂ : q₁.Elapses t x b q₂ _ := elapses_iff.2 ⟨fuel, s₂, second, rfl⟩
  obtain ⟨rfl, counts⟩ := h.unique (h₁.add h₂)
  cases s₁ with
  | error fault => exact nomatch counts
  | ok left =>
    cases s₂ with
    | error fault => exact nomatch counts
    | ok rest => exact ⟨q₁, _, _, h₁, h₂, Except.ok.inj counts⟩

theorem Elapses.le {a n : Nat} (h : p.Elapses t x a q (.ok n)) : n ≤ a := by
  obtain ⟨fuel, s, spent, counted⟩ := elapses_iff.1 h
  cases s with
  | error fault => exact nomatch counted
  | ok left => exact Except.ok.inj counted ▸ Nat.sub_le a left

theorem Elapses.rested {a : Nat} {r : Except Fault Nat} (h : p.Elapses t x a q r)
    (rested : p.Rested) : q.Rested := by
  obtain ⟨fuel, s, spent, -⟩ := elapses_iff.1 h
  exact spend_rested rested spent

theorem elapses_stopped (stopped : p.playing = false) (a : Nat) : p.Elapses t x a p (.ok 0) :=
  elapses_iff.2 ⟨1, .ok a, spend_stopped stopped, by simp [Except.map]⟩

/-- A time without fault can be cut into calls. -/
theorem Elapses.calls {ticks : List Nat} {more n : Nat}
    (h : p.Elapses t x (ticks.sum + more) q (.ok n)) : ∃ r played, p.Calls t x ticks r played := by
  induction ticks generalizing p n with
  | nil => exact ⟨p, 0, .nil p⟩
  | cons first rest ih =>
    rw [List.sum_cons, Nat.add_assoc] at h
    obtain ⟨q₁, m, k, now, later, -⟩ := h.parts
    obtain ⟨r, played, on⟩ := ih later
    exact ⟨r, m + played, .cons now on⟩

theorem Calls.elapses {first played : Nat} {rest : List Nat}
    (calls : p.Calls t x (first :: rest) q played) :
    p.Elapses t x (first :: rest).sum q (.ok played) := by
  induction rest generalizing p first played with
  | nil =>
    obtain _ | ⟨now, _ | _⟩ := calls
    simpa using now
  | cons next rest ih =>
    obtain _ | ⟨now, on⟩ := calls
    exact now.add (ih on)

/-- As long as there is more to be played than has passed, the tape has not run out: it would have
halted the player, and the time still to come could add nothing to the count. -/
theorem Elapses.running {ticks all played count : Nat} {r : Player}
    (elapsed : p.Elapses t x ticks r (.ok played)) (ran : p.ranOut = false)
    (whole : p.Elapses t x all q (.ok count)) (early : ticks ≤ all) (ahead : ticks < count) :
    r.ranOut = false := by
  rw [Bool.eq_false_iff]
  intro out
  obtain ⟨more, rfl⟩ := Nat.exists_eq_add_of_le early
  obtain ⟨r', m, k, now, later, counts⟩ := whole.parts
  obtain ⟨rfl, -⟩ := now.unique elapsed
  have halted : r'.playing = false := now.rested (fun already => by simp [ran] at already) out
  obtain ⟨-, none⟩ := later.unique (elapses_stopped halted more)
  obtain rfl := Except.ok.inj none
  have le := now.le
  omega

/-- A player that has been played to the end of its tape can be played so in calls of any lengths.
The tape has run out just when they have lasted as long as its intervals, and then their counts
add up to the same. -/
theorem Plays.calls {l : List (Bool × Nat)} (plays : p.Plays t x l q) (playing : p.playing = true)
    (fresh : p.remaining = 0) (ran : p.ranOut = false) (out : q.ranOut = true) (ticks : List Nat) :
    (∃ r played, p.Calls t x ticks r played) ∧
      ∀ r played, p.Calls t x ticks r played →
        (r.ranOut = true ↔ ticks ≠ [] ∧ lasting l ≤ ticks.sum) ∧
        (r.ranOut = true → r = q ∧ played = lasting l) := by
  have lasts (left : Nat) : p.Elapses t x (lasting l + left) q (.ok (lasting l)) := by
    have spent := plays.spend playing left
    rw [fresh, Nat.zero_add] at spent
    exact elapses_iff.2 ⟨_, .ok left, spent, by simp [Except.map]⟩
  refine ⟨(Nat.add_comm _ _ ▸ lasts ticks.sum).calls, fun r played calls => ?_⟩
  cases ticks with
  | nil =>
    cases calls
    simp [ran]
  | cons first rest =>
    have elapsed := calls.elapses
    rcases Nat.lt_or_ge (first :: rest).sum (lasting l) with short | long
    · rw [elapsed.running ran (lasts 0) (Nat.le_of_lt short) short]
      exact ⟨⟨nofun, fun long => absurd long.2 (Nat.not_le.2 short)⟩, nofun⟩
    · obtain ⟨left, whole⟩ := Nat.exists_eq_add_of_le long
      obtain ⟨rfl, count⟩ := (whole ▸ elapsed).unique (lasts left)
      exact ⟨⟨fun _ => ⟨List.cons_ne_nil _ _, long⟩, fun _ => out⟩,
        fun _ => ⟨rfl, Except.ok.inj count⟩⟩

end Player

/-! ### TAP images -/

namespace Tape

variable {t : Tape} {x : Index}

theorem beats_payloads (whole : t.image.Whole) (tap : t.format = .tap) (s : Settings)
    {bs : List Block} (read : ∀ b ∈ bs, ∃ o, t.blockAt? o = .ok (some b)) :
    bs.flatMap (Block.beats s t.image) =
      (bs.filterMap (Block.payloadIn t.image)).flatMap fun payload =>
        (sounding s payload.toList).map .start := by
  induction bs with
  | nil => rfl
  | cons b bs ih =>
    obtain ⟨o, here⟩ := read b (by simp)
    obtain ⟨payload, held, beats⟩ := Block.beats_tap whole tap here s
    rw [List.flatMap_cons, List.filterMap_cons_some held, List.flatMap_cons, beats,
      ih fun b member => read b (by simp [member])]

/-- A new player plays a TAP image with fewer blocks than one walk may enter as what its payloads
sound like, beginning with the line low, and then stands rewound at the first block with the sign
that the tape has run out. Whatever the calls of `advance` by which it is played, they run out of
tape just when they have lasted as long as all these intervals, and that is then their count. -/
theorem plays_payloads (h : Indexed t x) (tap : t.format = .tap) (few : x.count < 0x100000)
    (s : Settings) :
    let p := (Player.new s t.start).play
    let payloads := t.scan.blocks.toList.filterMap (Block.payloadIn t.image)
    let intervals := heard false
      (payloads.flatMap fun payload => (sounding s payload.toList).map .start)
    ∃ q, q = { Player.new s t.start with level := q.level, ranOut := true, head := q.head } ∧
      (∀ l r, p.Plays t x l r ↔ l = intervals ∧ r = q) ∧
      ∀ ticks, (∃ r played, p.Calls t x ticks r played) ∧
        ∀ r played, p.Calls t x ticks r played →
          (r.ranOut = true ↔ ticks ≠ [] ∧ Player.lasting intervals ≤ ticks.sum) ∧
          (r.ranOut = true → r = q ∧ played = Player.lasting intervals) := by
  intro p payloads intervals
  have read : ∀ b ∈ t.scan.blocks.toList, ∃ o, t.blockAt? o = .ok (some b) :=
    fun b member => h.read_of_mem member
  have standing : p.Standing t x := (Player.Reachable.play .new).standing h (s := s)
  obtain ⟨q, plays, -, out⟩ := Player.plays_ahead h (h.isPlain_of_tap tap) few standing rfl trivial
  have ahead : p.ahead t = intervals :=
    congrArg (heard false) (beats_payloads h.whole tap s read)
  rw [ahead] at plays
  refine ⟨q, out, fun l r => ⟨fun other => other.unique plays, ?_⟩, fun ticks => ?_⟩
  · rintro ⟨rfl, rfl⟩
    exact plays
  · exact plays.calls rfl rfl rfl (by rw [out]) ticks

/-- A flag of a header and an empty block, heard in two calls. -/
theorem plays_payloads_flag :
    let t : Tape := ⟨.tap, .ofBytes #[1, 0, 0x40, 0, 0], none⟩
    let x : Index := ⟨#[0], 2⟩
    let s : Settings :=
      { Settings.standard with clock? := some 7, timings := ⟨1, 2, 3, 4, 5, 2, 1⟩ }
    let zeros (count : Nat) : List (Bool × Nat) :=
      (List.replicate count [(true, 4), (false, 4)]).flatten
    let intervals := [(true, 1), (false, 1), (true, 2), (false, 3)] ++ zeros 1 ++
      [(true, 5), (false, 5)] ++ zeros 6 ++ [(false, 7)]
    let p := (Player.new s 0).play
    Indexed t x ∧ ∃ q, q.ranOut = true ∧ q.ordinal = 0 ∧ p.Plays t x intervals q ∧
      p.Calls t x [50, 50] q 80 := by
  intro t x s zeros intervals p
  have indexed : Indexed t x := ⟨rfl, by decide +kernel⟩
  have heard : heard false ((t.scan.blocks.toList.filterMap (Block.payloadIn t.image)).flatMap
      fun payload => (sounding s payload.toList).map .start) = intervals := by decide +kernel
  obtain ⟨q, out, plays, calls⟩ := plays_payloads indexed rfl (by decide) s
  obtain ⟨⟨r, played, called⟩, all⟩ := calls [50, 50]
  obtain ⟨ran, counted⟩ := all r played called
  rw [heard] at ran counted
  obtain ⟨rfl, rfl⟩ := counted (ran.2 ⟨List.cons_ne_nil _ _, by decide⟩)
  exact ⟨indexed, r, by rw [out], by rw [out]; rfl, (plays _ r).2 ⟨heard.symm, rfl⟩, called⟩

end Tape

end Cassette
