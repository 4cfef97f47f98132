import Cassette.Proofs.Cursor
import Cassette.Proofs.Slicing

/-! Where time stands still. Blocks that take no time are entered in one walk, and a walk that
enters too many ends in a fault (`Passes.walk`). But an interval of no length, a pulse of width
zero for one, ends a walk like any other, so where these follow each other without end `advance`
has no end either (`Hurries.spend`). Nothing else keeps it. Main statement: `returns_iff`. -/

namespace Cassette.Player

variable {t : Tape} {x : Index} {p q r : Player} {n fuel left rest ticks : Nat}

/-- While ticks pass from edge to edge, the player comes to be one that has so many still to go. -/
inductive Comes (t : Tape) (x : Index) : Player → Nat → Player → Nat → Prop
  | here {p : Player} {left : Nat} : Comes t x p left p left
  | edge {p q r : Player} {left rest : Nat} (playing : p.playing = true)
      (late : p.remaining ≤ left)
      (walked : { p with remaining := 0 }.startInterval t x = (q, .ok ()))
      (on : Comes t x q (left - p.remaining) r rest) : Comes t x p left r rest

/-- An interval of no length is over, and at least so many follow it in the same instant. -/
inductive Hurries (t : Tape) (x : Index) : Nat → Player → Prop
  | here {p : Player} : Hurries t x 0 p
  | next {n : Nat} {p q : Player} (playing : p.playing = true) (due : p.remaining = 0)
      (walked : p.startInterval t x = (q, .ok ())) (on : Hurries t x n q) : Hurries t x (n + 1) p

/-- At least so many blocks are entered, one behind the other, and none gives an interval. -/
inductive Passes (t : Tape) (x : Index) : Nat → Player → Prop
  | here {p : Player} : Passes t x 0 p
  | next {n : Nat} {p q : Player} (playing : p.playing = true)
      (ended : p.phase.next p.settings t.image = .ok none)
      (entered : p.leave.enter t x = (q, .ok ())) (on : Passes t x n q) : Passes t x (n + 1) p

/-! ### Walks -/

/-- A walk that would have to enter more blocks than it may is reported. -/
theorem Passes.walk {budget : Nat} (passes : Passes t x (budget + 1) p) :
    ∃ q ordinal, Player.walk t x budget p = (q, .error (.endlessWalk ordinal)) := by
  induction budget generalizing p with
  | zero =>
    cases passes with
    | next playing ended _ _ =>
      refine ⟨p.leave, p.leave.ordinal, ?_⟩
      rw [Player.walk, if_pos playing, ended]
  | succ budget ih =>
    cases passes with
    | next playing ended entered on =>
      obtain ⟨q, ordinal, walked⟩ := ih on
      refine ⟨q, ordinal, ?_⟩
      rw [Player.walk, if_pos playing, ended]
      simp only [entered]
      exact walked

/-! ### Calls -/

/-- As many intervals of no length as edges may be applied are too many. -/
theorem Hurries.spend (hurries : p.Hurries t x fuel) (left : Nat) :
    Player.spend t x fuel p left = none := by
  induction hurries with
  | here => rfl
  | @next n p q playing due walked _ ih =>
    have here : { p with remaining := 0 } = p := by rw [← due]
    rw [spend_late playing (due ▸ Nat.zero_le left), here, walked, due]
    exact ih

/-- A call does not return if the player comes to one that would keep it. -/
theorem Comes.spend (comes : p.Comes t x left q rest) (kept : ∀ n, q.Hurries t x n) (fuel : Nat) :
    Player.spend t x fuel p left = none := by
  induction comes generalizing fuel with
  | here => exact (kept fuel).spend _
  | edge playing late walked _ ih =>
    cases fuel with
    | zero => rfl
    | succ fuel =>
      rw [spend_late playing late, walked]
      exact ih kept fuel

/-- A call returns if the player comes to none that would keep it. The induction is on the ticks,
and among calls that are left the same ticks on the intervals of no length that follow. -/
theorem spend_returns (free : ¬ ∃ q rest, p.Comes t x left q rest ∧ ∀ n, q.Hurries t x n) :
    ∃ fuel r, Player.spend t x fuel p left = some r := by
  induction left using Nat.strongRecOn generalizing p with
  | ind left ih =>
    obtain ⟨n, few⟩ : ∃ n, ¬ p.Hurries t x n := by
      by_contra kept
      apply free
      exact ⟨p, left, .here, not_exists_not.1 kept⟩
    induction n generalizing p with
    | zero => exact absurd .here few
    | succ n again =>
      cases playing : p.playing with
      | false => exact ⟨1, _, spend_stopped playing⟩
      | true =>
        rcases Nat.lt_or_ge left p.remaining with early | late
        · exact ⟨1, _, spend_early playing early⟩
        · obtain ⟨⟨q, fault | ⟨⟨⟩⟩⟩, walked⟩ :
              ∃ r, { p with remaining := 0 }.startInterval t x = r := ⟨_, rfl⟩
          · refine ⟨1, (q.stop, .error fault), ?_⟩
            rw [spend_late playing late, walked]
          · have free' : ¬ ∃ r rest, q.Comes t x (left - p.remaining) r rest ∧
                ∀ n, r.Hurries t x n := by
              rintro ⟨r, rest, comes, kept⟩
              apply free
              exact ⟨r, rest, .edge playing late walked comes, kept⟩
            have returns : ∃ fuel r, Player.spend t x fuel q (left - p.remaining) = some r := by
              rcases Nat.eq_zero_or_pos p.remaining with due | lasts
              · have here : { p with remaining := 0 } = p := by rw [← due]
                rw [due] at free' ⊢
                apply again free'
                intro hurries
                apply few
                exact .next playing due (here ▸ walked) hurries
              · apply ih _ _ free'
                omega
            obtain ⟨fuel, r, spent⟩ := returns
            refine ⟨fuel + 1, r, ?_⟩
            rw [spend_late playing late, walked]
            exact spent

/-- Letting ticks pass comes to an end, in an answer or a fault, unless the player comes within
these ticks to where intervals of no length follow each other for ever. Where no interval at all
follows, only blocks that take no time, the end is a fault that says so. -/
theorem returns_iff (t : Tape) (x : Index) (p : Player) (ticks : Nat) :
    ((∃ q r, p.Elapses t x ticks q r) ↔
      ¬ ∃ q rest, p.Comes t x ticks q rest ∧ ∀ n, q.Hurries t x n) ∧
    (p.playing = true → p.remaining ≤ ticks → (∀ n, { p with remaining := 0 }.Passes t x n) →
      ∃ q ordinal, p.Elapses t x ticks q (.error (.endlessWalk ordinal))) := by
  refine ⟨⟨?_, ?_⟩, ?_⟩
  · rintro ⟨q, r, returns⟩ ⟨q', rest, comes, kept⟩
    obtain ⟨fuel, s, spent, -⟩ := elapses_iff.1 returns
    exact nomatch spent.symm.trans (comes.spend kept fuel)
  · intro free
    obtain ⟨fuel, ⟨q, s⟩, spent⟩ := spend_returns free
    exact ⟨q, _, elapses_iff.2 ⟨fuel, s, spent, rfl⟩⟩
  · intro playing late passes
    obtain ⟨q, ordinal, walked⟩ := (passes (walkLimit + 1)).walk
    refine ⟨q.stop, ordinal, elapses_iff.2 ⟨1, .error (.endlessWalk ordinal), ?_, rfl⟩⟩
    rw [spend_late playing late, startInterval, walked]

/-- Two jumps that lead to each other. -/
theorem returns_iff_jumps :
    let t : Tape := ⟨.tzx, .ofBytes (Tzx.magic ++ #[1, 20, 0x23, 1, 0, 0x23, 0xFF, 0xFF]),
      some (1, 20)⟩
    let x : Index := ⟨#[10], 2⟩
    let p := (new .standard 10).play
    p.playing = true ∧ p.remaining ≤ 100 ∧ (∀ n, p.Passes t x n) ∧
      ∃ q ordinal, p.Elapses t x 100 q (.error (.endlessWalk ordinal)) := by
  intro t x p
  let first : Player := { p with behind := 16, head := 16 }
  let second : Player := { p with ordinal := 1, offset := 13, behind := 13, head := 13 }
  have start : p.leave.enter t x = (second, .ok ()) := by decide +kernel
  have on : first.leave.enter t x = (second, .ok ()) := by decide +kernel
  have back : second.leave.enter t x = (first, .ok ()) := by decide +kernel
  have circles (n : Nat) : first.Passes t x n ∧ second.Passes t x n := by
    induction n with
    | zero => exact ⟨.here, .here⟩
    | succ n ih => exact ⟨.next rfl rfl on ih.2, .next rfl rfl back ih.1⟩
  have passes : ∀ n, p.Passes t x n := by
    intro n
    cases n with
    | zero => exact .here
    | succ n => exact .next rfl rfl start (circles n).2
  exact ⟨rfl, by decide, passes, (returns_iff t x p 100).2 rfl (by decide) passes⟩

/-- A pulse of width zero, and a jump back to it: no time is too short for a call to be kept. -/
theorem never_returns :
    let t : Tape := ⟨.tzx, .ofBytes (Tzx.magic ++ #[1, 20, 0x12, 0, 0, 1, 0, 0x23, 0xFF, 0xFF]),
      some (1, 20)⟩
    let x : Index := ⟨#[10], 2⟩
    let p := (new .standard 10).play
    Indexed t x ∧ Reachable t x .standard p ∧ ∀ fuel ticks, p.advance t x fuel ticks = none := by
  intro t x p
  have indexed : Indexed t x := ⟨rfl, by decide +kernel⟩
  let q (level : Bool) : Player := { p with behind := 15, head := 15, phase := .tone 0 0, level }
  have first : p.startInterval t x = (q true, .ok ()) := by decide +kernel
  have again (level : Bool) : (q level).startInterval t x = (q !level, .ok ()) := by
    cases level <;> decide +kernel
  have circles (n : Nat) (level : Bool) : (q level).Hurries t x n := by
    induction n generalizing level with
    | zero => exact .here
    | succ n ih => exact .next rfl rfl (again level) (ih _)
  refine ⟨indexed, .play .new, fun fuel ticks => ?_⟩
  have kept : ∀ n, p.Hurries t x n := by
    intro n
    cases n with
    | zero => exact .here
    | succ n => exact .next rfl rfl first (circles n true)
  rw [advance, (kept fuel).spend ticks]
  rfl

end Cassette.Player
