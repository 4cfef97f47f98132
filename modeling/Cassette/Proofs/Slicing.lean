import Cassette.Player

/-! Time in slices. However a stretch of time is cut into calls of `advance`, the tape
plays the same: the player ends in the same state, the counts of the parts add up to
the count of the whole, and the fault of a part is the fault of the whole. The induction
is on the edges applied in the first part; a part that ends between two edges leaves the
second to come upon the same edge with fewer ticks to go. Main statement: `advance_add`. -/

namespace Cassette.Player

variable {t : Tape} {x : Index} {p q : Player} {fuel : Nat} {a b left : Nat}

/-- Letting `ticks` pass ends in `q` and answers `r`, once enough edges are allowed. -/
def Elapses (t : Tape) (x : Index) (p : Player) (ticks : Nat) (q : Player)
    (r : Except Fault Nat) : Prop :=
  ∃ fuel, p.advance t x fuel ticks = some (q, r)

/-- The answer to a stretch of time whose parts were answered `r` and `s`. -/
def joined (r s : Except Fault Nat) : Except Fault Nat := do return (← r) + (← s)

@[simp] theorem joined_ok (m n : Nat) : joined (.ok m) (.ok n) = .ok (m + n) := rfl

/-! ### One call -/

theorem spend_stopped (stopped : p.playing = false) :
    spend t x (fuel + 1) p left = some (p, .ok left) := by
  simp [spend, stopped]

theorem spend_early (playing : p.playing = true) (early : left < p.remaining) :
    spend t x (fuel + 1) p left = some ({ p with remaining := p.remaining - left }, .ok 0) := by
  simp [spend, playing, early]

theorem spend_late (playing : p.playing = true) (late : p.remaining ≤ left) :
    spend t x (fuel + 1) p left =
      match { p with remaining := 0 }.startInterval t x with
      | (q, .error fault) => some (q.stop, .error fault)
      | (q, .ok ()) => spend t x fuel q (left - p.remaining) := by
  rw [spend]
  exact (if_pos playing).trans (if_neg (Nat.not_lt.2 late))

/-- The ways in which a call comes to its answer: nothing happens on a stopped tape or in the
middle of an interval, and at an edge there is a fault, or the time goes on. -/
inductive Spends (t : Tape) (x : Index) (fuel : Nat) (p : Player) (left : Nat) :
    Player → Except Fault Nat → Prop
  | stopped (stopped : p.playing = false) : Spends t x fuel p left p (.ok left)
  | early (playing : p.playing = true) (early : left < p.remaining) :
      Spends t x fuel p left { p with remaining := p.remaining - left } (.ok 0)
  | fault {q : Player} {fault : Fault} (playing : p.playing = true) (late : p.remaining ≤ left)
      (walked : { p with remaining := 0 }.startInterval t x = (q, .error fault)) :
      Spends t x fuel p left q.stop (.error fault)
  | edge {q q' : Player} {r : Except Fault Nat} (playing : p.playing = true)
      (late : p.remaining ≤ left)
      (walked : { p with remaining := 0 }.startInterval t x = (q, .ok ()))
      (on : spend t x fuel q (left - p.remaining) = some (q', r)) : Spends t x fuel p left q' r

theorem spend_cases {r : Except Fault Nat} (spent : spend t x (fuel + 1) p left = some (q, r)) :
    p.Spends t x fuel left q r := by
  cases playing : p.playing with
  | false =>
    rw [spend_stopped playing] at spent
    obtain ⟨rfl, rfl⟩ := Prod.mk.inj (Option.some.inj spent)
    exact .stopped playing
  | true =>
    rcases Nat.lt_or_ge left p.remaining with early | late
    · rw [spend_early playing early] at spent
      obtain ⟨rfl, rfl⟩ := Prod.mk.inj (Option.some.inj spent)
      exact .early playing early
    · rw [spend_late playing late] at spent
      split at spent
      · next walked =>
        obtain ⟨rfl, rfl⟩ := Prod.mk.inj (Option.some.inj spent)
        exact .fault playing late walked
      · next walked => exact .edge playing late walked spent

/-- What is true of the player and the ticks left behind when a call returns: none are
left while the tape plays, and then the next edge is still ahead. -/
theorem spend_ok (h : spend t x fuel p a = some (q, .ok left)) :
    left ≤ a ∧ (0 < left → q.playing = false) ∧ (q.playing = true → 0 < q.remaining) := by
  induction fuel generalizing p a with
  | zero => simp [spend] at h
  | succ fuel ih =>
    cases spend_cases h with
    | stopped stopped => exact ⟨Nat.le_refl _, fun _ => stopped, by simp [stopped]⟩
    | early playing early => exact ⟨Nat.zero_le a, by simp, fun _ => Nat.sub_pos_of_lt early⟩
    | edge playing late walked on =>
      obtain ⟨le, rest⟩ := ih on
      exact ⟨Nat.le_trans le (Nat.sub_le _ _), rest⟩

/-- A fault has stopped the tape. -/
theorem spend_error {fault : Fault} (h : spend t x fuel p a = some (q, .error fault)) :
    q.playing = false := by
  induction fuel generalizing p a with
  | zero => simp [spend] at h
  | succ fuel ih =>
    cases spend_cases h with
    | fault => rfl
    | edge playing late walked on => exact ih on

/-! ### Two calls -/

theorem spend_add_error {fault : Fault} (h : spend t x fuel p a = some (q, .error fault))
    (b : Nat) : spend t x fuel p (a + b) = some (q, .error fault) := by
  induction fuel generalizing p a with
  | zero => simp [spend] at h
  | succ fuel ih =>
    cases spend_cases h with
    | fault playing late walked =>
      rw [spend_late playing (Nat.le_trans late (Nat.le_add_right a b)), walked]
    | edge playing late walked on =>
      rw [spend_late playing (Nat.le_trans late (Nat.le_add_right a b)), walked]
      simp only
      rw [Nat.sub_add_comm late]
      exact ih on

/-- Ticks spent between two edges bring the next edge nearer and do nothing else. -/
theorem spend_resume (playing : p.playing = true) (early : a < p.remaining) :
    spend t x (fuel + 1) { p with remaining := p.remaining - a } b
      = spend t x (fuel + 1) p (a + b) := by
  let paused : Player := { p with remaining := p.remaining - a }
  rcases Nat.lt_or_ge (a + b) p.remaining with still | late
  · have rest : b < paused.remaining := Nat.lt_sub_iff_add_lt'.2 still
    rw [spend_early playing still, spend_early (p := paused) playing rest]
    simp only [paused, Nat.sub_sub]
  · have rest : paused.remaining ≤ b := Nat.sub_le_iff_le_add'.2 late
    rw [spend_late playing late, spend_late (p := paused) playing rest,
      show a + b - p.remaining = b - paused.remaining by simp only [paused]; omega]

/-- After a first part without fault, the whole goes on as the second part does. -/
theorem spend_add {more : Nat} {r : Player × Except Fault Nat}
    (h : spend t x fuel p a = some (q, .ok left)) (h' : spend t x more q b = some r) :
    spend t x (fuel + more) p (a + b) = some (r.1, r.2.map (left + ·)) := by
  induction fuel generalizing p a with
  | zero => simp [spend] at h
  | succ fuel ih =>
    obtain ⟨more, rfl⟩ : ∃ n, more = n + 1 :=
      Nat.exists_eq_add_one_of_ne_zero (by rintro rfl; simp [spend] at h')
    rw [Nat.succ_add]
    cases spend_cases h with
    | stopped stopped =>
      rw [spend_stopped stopped] at h' ⊢
      rw [← Option.some.inj h']
      rfl
    | early playing early =>
      rw [spend_resume playing early] at h'
      rw [spend_of_le h' (by omega)]
      rcases r with ⟨q, _ | n⟩ <;> simp [Except.map]
    | edge playing late walked on =>
      rw [spend_late playing (Nat.le_trans late (Nat.le_add_right a b)), walked]
      simp only
      rw [Nat.sub_add_comm late]
      exact ih on

/-- If the whole returns, so do both parts. -/
theorem spend_parts {r : Player × Except Fault Nat} (h : spend t x fuel p (a + b) = some r) :
    ∃ q s, spend t x fuel p a = some (q, s) ∧ ∃ r', spend t x fuel q b = some r' := by
  induction fuel generalizing p a with
  | zero => simp [spend] at h
  | succ fuel ih =>
    cases playing : p.playing with
    | false => exact ⟨p, _, spend_stopped playing, _, spend_stopped playing⟩
    | true =>
      rcases Nat.lt_or_ge a p.remaining with early | late
      · exact ⟨_, _, spend_early playing early, r, by rwa [spend_resume playing early]⟩
      · rw [spend_late playing (Nat.le_trans late (Nat.le_add_right a b))] at h
        rw [spend_late playing late]
        split at h
        · next q fault _ => exact ⟨q.stop, _, rfl, _, spend_stopped rfl⟩
        · rw [Nat.sub_add_comm late] at h
          obtain ⟨q, s, first, r', second⟩ := ih h
          exact ⟨q, s, first, r', spend_of_le second (Nat.le_add_right fuel 1)⟩

/-! ### Counts -/

/-- The answers of `advance` and `spend` tell the same: ticks played and ticks left over
make up the ticks asked for. -/
theorem advance_eq_some_iff {r : Except Fault Nat} :
    p.advance t x fuel a = some (q, r) ↔
      ∃ s, spend t x fuel p a = some (q, s) ∧ r = s.map (a - ·) := by
  constructor
  · intro h
    obtain ⟨⟨q', s⟩, spent, h⟩ := Option.map_eq_some_iff.1 h
    obtain ⟨rfl, rfl⟩ : q' = q ∧ _ = r := by simpa using h
    exact ⟨s, spent, rfl⟩
  · rintro ⟨s, spent, rfl⟩
    rw [advance, spent]
    rfl

theorem elapses_iff {r : Except Fault Nat} :
    p.Elapses t x a q r ↔ ∃ fuel s, spend t x fuel p a = some (q, s) ∧ r = s.map (a - ·) :=
  exists_congr fun _ => advance_eq_some_iff

theorem Elapses.unique {q' : Player} {r r' : Except Fault Nat} (h : p.Elapses t x a q r)
    (h' : p.Elapses t x a q' r') : q = q' ∧ r = r' := by
  obtain ⟨fuel, s, spent, rfl⟩ := elapses_iff.1 h
  obtain ⟨fuel', s', spent', rfl⟩ := elapses_iff.1 h'
  have same := (spend_of_le spent (Nat.le_max_left fuel fuel')).symm.trans
    (spend_of_le spent' (Nat.le_max_right fuel fuel'))
  obtain ⟨rfl, rfl⟩ : q = q' ∧ s = s' := by simpa using same
  exact ⟨rfl, rfl⟩

/-- Two calls in a row come to what one call for all the time comes to. -/
theorem Elapses.add {q₁ q₂ : Player} {r₁ r₂ : Except Fault Nat} (h₁ : p.Elapses t x a q₁ r₁)
    (h₂ : q₁.Elapses t x b q₂ r₂) : p.Elapses t x (a + b) q₂ (joined r₁ r₂) := by
  obtain ⟨fuel, s₁, first, rfl⟩ := elapses_iff.1 h₁
  obtain ⟨more, s₂, second, rfl⟩ := elapses_iff.1 h₂
  cases s₁ with
  | error fault =>
    -- the tape has been stopped, so the second call changes nothing and plays nothing
    obtain ⟨more, rfl⟩ : ∃ n, more = n + 1 :=
      Nat.exists_eq_add_one_of_ne_zero (by rintro rfl; simp [spend] at second)
    rw [spend_stopped (spend_error first)] at second
    obtain ⟨rfl, rfl⟩ : q₁ = q₂ ∧ .ok b = s₂ := by simpa using second
    exact elapses_iff.2 ⟨fuel, _, spend_add_error first b, rfl⟩
  | ok left =>
    refine elapses_iff.2 ⟨fuel + more, _, spend_add first second, ?_⟩
    have le := (spend_ok first).1
    cases s₂ with
    | error fault => rfl
    | ok rest =>
      have le' := (spend_ok second).1
      simp only [Except.map, joined_ok, Except.ok.injEq]
      omega

/-- However the time is cut, the tape plays the same: two calls that return come to exactly
what one call for the whole time comes to, which returns whenever they do and the other way
round. A count is never more than was asked for, is less only if the tape has stopped, and a
tape that still plays has its next edge ahead. -/
theorem advance_add (t : Tape) (x : Index) (p : Player) (a b : Nat) :
    (∀ q₁ r₁ q₂ r₂, p.Elapses t x a q₁ r₁ → q₁.Elapses t x b q₂ r₂ →
      ∀ q r, p.Elapses t x (a + b) q r ↔ q = q₂ ∧ r = joined r₁ r₂) ∧
    (∀ q r, p.Elapses t x (a + b) q r →
      ∃ q₁ r₁ q₂ r₂, p.Elapses t x a q₁ r₁ ∧ q₁.Elapses t x b q₂ r₂) ∧
    (∀ q n, p.Elapses t x a q (.ok n) →
      n ≤ a ∧ (n < a → q.playing = false) ∧ (q.playing = true → 0 < q.remaining)) := by
  refine ⟨fun q₁ r₁ q₂ r₂ h₁ h₂ q r => ⟨fun h => h.unique (h₁.add h₂), ?_⟩, ?_, ?_⟩
  · rintro ⟨rfl, rfl⟩
    exact h₁.add h₂
  · intro q r h
    obtain ⟨fuel, s, spent, -⟩ := elapses_iff.1 h
    obtain ⟨q₁, s₁, first, ⟨q₂, s₂⟩, second⟩ := spend_parts spent
    exact ⟨q₁, _, q₂, _, elapses_iff.2 ⟨fuel, s₁, first, rfl⟩,
      elapses_iff.2 ⟨fuel, s₂, second, rfl⟩⟩
  · intro q n h
    obtain ⟨fuel, s, spent, played⟩ := elapses_iff.1 h
    cases s with
    | error fault => simp [Except.map] at played
    | ok left =>
      obtain ⟨le, ended, ahead⟩ := spend_ok spent
      have count : n = a - left := by simpa [Except.map] using played
      exact ⟨by omega, fun short => ended (by omega), ahead⟩

/-- Two pulses of a hundred ticks, cut in the middle of the first. -/
theorem advance_add_tone :
    let t : Tape := ⟨.tzx, .ofBytes (Tzx.magic ++ #[1, 20, 0x12, 100, 0, 2, 0]), some (1, 20)⟩
    let x : Index := ⟨#[10], 1⟩
    let p := (Player.new .standard 10).play
    let paused :=
      { p with behind := 15, head := 15, phase := .tone 100 1, level := true, remaining := 60 }
    let done := { p with playing := false, ranOut := true, head := 15 }
    p.Elapses t x 40 paused (.ok 40) ∧ paused.Elapses t x 1000 done (.ok 160) ∧
      p.Elapses t x (40 + 1000) done (.ok 200) := by
  intro t x p paused done
  have first : p.Elapses t x 40 paused (.ok 40) := ⟨3, rfl⟩
  have second : paused.Elapses t x 1000 done (.ok 160) := ⟨3, rfl⟩
  exact ⟨first, second,
    ((advance_add t x p 40 1000).1 paused _ done _ first second done _).2 ⟨rfl, rfl⟩⟩

end Cassette.Player
