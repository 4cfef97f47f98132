import Cassette.Proofs.Choosing
import Cassette.Proofs.Inserting
import Cassette.Proofs.Standstill

/-! Whether playing a tape without a machine comes to an end. Whenever the tape halts it is
started again, and the limit is one of ticks: a tape that leads from one halt to the next without
a sound in between is started for ever (`Account.playOn_balks`). If every interval lasts, each step
that takes no time is a start in vain, and all others use up the limit; so nothing else keeps the
tape, but that the ticks are counted in a word, which can slip past the limit by wrapping around
(`Account.playOn_returns`). Main statement: `Session.play_ends`. -/

namespace Cassette

open Signal

namespace Player

variable {t : Tape} {x : Index} {p q r : Player} {k n : Nat} {fault : Fault}

/-! ### Steps -/

/-- The tape is over: it has run off its end, or halted at block 0. -/
def Ended (p : Player) : Prop := p.playing = false ∧ (p.ranOut = true ∨ p.ordinal = 0)

/-- A tape that has halted is started again. -/
def resumed (p : Player) : Player := if p.playing then p else p.play

/-- What comes behind the interval that is being played, or behind the halt. -/
def onward (t : Tape) (x : Index) (p : Player) : Player × Except Fault Unit :=
  { p.resumed with remaining := 0 }.startInterval t x

/-- The player comes to be another one, so many ticks later. -/
inductive Proceeds (t : Tape) (x : Index) : Player → Player → Nat → Prop
  | here {p : Player} : Proceeds t x p p 0
  | next {p q r : Player} {n : Nat} (unended : ¬ p.Ended) (went : p.onward t x = (q, .ok ()))
      (on : Proceeds t x q r n) : Proceeds t x p r (p.remaining + n)

/-- The player comes to be another one while the ticks played grow from one number to another. They
are counted in a word, and what it holds never passes the limit. -/
inductive Admitted (t : Tape) (x : Index) (limit : Nat) : Player → Nat → Player → Nat → Prop
  | here {p : Player} {m : Nat} : Admitted t x limit p m p m
  | next {p q r : Player} {m n : Nat} (unended : ¬ p.Ended) (went : p.onward t x = (q, .ok ()))
      (within : (m + p.remaining) % 2 ^ 64 ≤ limit)
      (on : Admitted t x limit q (m + p.remaining) r n) : Admitted t x limit p m r n

/-- The tape is started so many times in a row, and each time it halts again in the same instant,
without being over. -/
inductive Balks (t : Tape) (x : Index) : Nat → Player → Prop
  | here {p : Player} : Balks t x 0 p
  | next {k : Nat} {p q : Player} (halted : p.playing = false) (due : p.remaining = 0)
      (unended : ¬ p.Ended) (went : p.onward t x = (q, .ok ())) (on : Balks t x k q) :
      Balks t x (k + 1) p

/-- Every interval that the tape gives lasts. -/
def Lasting (t : Tape) (x : Index) (p : Player) : Prop :=
  ∀ q n r, p.Proceeds t x q n → ¬ q.Ended → q.onward t x = (r, .ok ()) → r.playing = true →
    0 < r.remaining

def Settled (p : Player) : Prop := p.playing = true ↔ 0 < p.remaining

theorem resumed_playing (p : Player) : p.resumed.playing = true := by
  unfold resumed
  split
  · assumption
  · rfl

theorem resumed_remaining (p : Player) : p.resumed.remaining = p.remaining := by
  unfold resumed
  split <;> rfl

theorem resumed_ordinal (p : Player) : p.resumed.ordinal = p.ordinal := by
  unfold resumed
  split <;> rfl

/-! ### Halts -/

theorem haltAfter_remaining (p : Player) (count : Nat) :
    (p.haltAfter count).remaining = p.remaining := by
  unfold haltAfter
  split <;> rfl

theorem follow_due (due : p.remaining = 0) (turn : Turn) :
    (p.follow t x turn).1.remaining = 0 := by
  cases turn with
  | next => exact due
  | finish => rfl
  | stop => exact (haltAfter_remaining p _).trans due
  | goTo ordinal =>
    rw [follow]
    cases x.locate t ordinal <;> exact due

theorem enter_due (due : p.remaining = 0) : (p.enter t x).1.remaining = 0 := by
  unfold enter
  split
  · rfl
  · split
    · exact due
    · exact due
    · simp only
      split
      · exact due
      · exact due
      · exact (haltAfter_remaining _ _).trans due
      · exact due
      · refine follow_due ?_ _
        exact due

theorem leave_due (due : p.remaining = 0) : p.leave.remaining = 0 := by
  unfold leave
  split <;> exact due

theorem walk_due {budget : Nat} (due : p.remaining = 0)
    (halted : (walk t x budget p).1.playing = false) : (walk t x budget p).1.remaining = 0 := by
  fun_induction walk t x budget p with
  | case1 => exact due
  | case2 _ _ playing =>
    have silent := playing.symm.trans halted
    cases silent
  | case3 => exact leave_due due
  | case4 p _ _ _ q fault failed =>
    have entered : (p.leave.enter t x).1.remaining = 0 := enter_due (leave_due due)
    rw [failed] at entered
    exact entered
  | case5 p _ _ _ q went ih =>
    have entered : (p.leave.enter t x).1.remaining = 0 := enter_due (leave_due due)
    rw [went] at entered
    exact ih entered halted
  | case6 => exact due

theorem settled_onward (went : p.onward t x = (q, .ok ()))
    (lasts : q.playing = true → 0 < q.remaining) : q.Settled := by
  refine ⟨lasts, fun begun => ?_⟩
  by_contra halted
  have due : (walk t x walkLimit { p.resumed with remaining := 0 }).1.remaining = 0 := by
    apply walk_due rfl
    rw [show walk t x walkLimit { p.resumed with remaining := 0 } = (q, .ok ()) from went]
    simpa using halted
  rw [show walk t x walkLimit { p.resumed with remaining := 0 } = (q, .ok ()) from went] at due
  exact absurd due (Nat.ne_of_gt begun)

/-! ### Calls -/

theorem advance_fault (went : p.onward t x = (q, .error fault)) (fuel : Nat) :
    p.resumed.advance t x (fuel + 1) p.remaining = some (q.stop, .error fault) := by
  have late : p.resumed.remaining ≤ p.remaining := Nat.le_of_eq (resumed_remaining p)
  have went : { p.resumed with remaining := 0 }.startInterval t x = (q, .error fault) := went
  rw [advance, spend_late (resumed_playing p) late, went]
  rfl

/-- One edge is too few for a call that starts an interval. -/
theorem advance_short (went : p.onward t x = (q, .ok ())) :
    p.resumed.advance t x 1 p.remaining = none := by
  have late : p.resumed.remaining ≤ p.remaining := Nat.le_of_eq (resumed_remaining p)
  have went : { p.resumed with remaining := 0 }.startInterval t x = (q, .ok ()) := went
  rw [advance, spend_late (resumed_playing p) late, went]
  rfl

theorem advance_onward (went : p.onward t x = (q, .ok ()))
    (lasts : q.playing = true → 0 < q.remaining) (fuel : Nat) :
    p.resumed.advance t x (fuel + 2) p.remaining = some (q, .ok p.remaining) := by
  have late : p.resumed.remaining ≤ p.remaining := Nat.le_of_eq (resumed_remaining p)
  have went : { p.resumed with remaining := 0 }.startInterval t x = (q, .ok ()) := went
  have spent : spend t x (fuel + 1) q 0 = some (q, .ok 0) := by
    cases playing : q.playing with
    | true => exact spend_early playing (lasts playing)
    | false => exact spend_stopped playing
  rw [advance, spend_late (resumed_playing p) late, went, resumed_remaining, Nat.sub_self]
  simp only [spent]
  rfl

/-! ### Runs -/

/-- What every step keeps is true of whatever a player proceeds to. -/
theorem Proceeds.keeps {P : Player → Prop} (proceeds : p.Proceeds t x q n) (here : P p)
    (step : ∀ q r, P q → ¬ q.Ended → q.onward t x = (r, .ok ()) → P r) : P q := by
  induction proceeds with
  | here => exact here
  | next unended went _ ih => exact ih (step _ _ here unended went)

/-- Every interval lasts if a step can only lead to players of a kind, and these have begun one that
does or none. -/
theorem lasting_of_invariant {P : Player → Prop} (here : P p)
    (step : ∀ q r, P q → ¬ q.Ended → q.onward t x = (r, .ok ()) →
      P r ∧ (r.playing = true → 0 < r.remaining)) : p.Lasting t x := by
  intro q n r proceeds unended went
  have kept : P q := proceeds.keeps here fun q r kept unended went => (step q r kept unended went).1
  exact (step q r kept unended went).2

theorem Lasting.onward (lasting : p.Lasting t x) (unended : ¬ p.Ended)
    (went : p.onward t x = (q, .ok ())) : q.Lasting t x :=
  fun r n r' proceeds => lasting r (p.remaining + n) r' (.next unended went proceeds)

theorem Lasting.next (lasting : p.Lasting t x) (unended : ¬ p.Ended)
    (went : p.onward t x = (q, .ok ())) : q.playing = true → 0 < q.remaining :=
  lasting p 0 q .here unended went

theorem onward_sound (h : Indexed t x) (standing : p.Standing t x) : Sound t x (p.onward t x) := by
  have resumed : p.resumed.Standing t x := by
    unfold Player.resumed
    split
    · exact standing
    · exact standing.play
  exact walk_sound h walkLimit (resumed.paused 0 p.resumed.playing)

theorem Admitted.proceeds {limit m : Nat} (admitted : p.Admitted t x limit m q n) :
    ∃ k, n = m + k ∧ p.Proceeds t x q k := by
  induction admitted with
  | here => exact ⟨0, rfl, .here⟩
  | next unended went _ _ ih =>
    obtain ⟨k, rfl, proceeds⟩ := ih
    exact ⟨_, Nat.add_assoc .., .next unended went proceeds⟩

/-- Where no interval is so long that the word could wrap around within the limit, it holds the
ticks themselves. -/
theorem admitted_iff {limit m : Nat} (small : m ≤ limit) (word : limit ≤ lastTick)
    (brief : ∀ q n, p.Proceeds t x q n → q.remaining + limit ≤ lastTick) :
    p.Admitted t x limit m q n ↔ ∃ k, n = m + k ∧ n ≤ limit ∧ p.Proceeds t x q k := by
  have size : lastTick = 2 ^ 64 - 1 := rfl
  constructor
  · intro admitted
    induction admitted with
    | here => exact ⟨0, rfl, small, .here⟩
    | @next p _ _ m _ unended went within _ ih =>
      have here := brief p 0 .here
      rw [Nat.mod_eq_of_lt (by omega)] at within
      obtain ⟨k, rfl, most, proceeds⟩ :=
        ih within fun q n proceeds => brief q _ (.next unended went proceeds)
      exact ⟨_, Nat.add_assoc .., most, .next unended went proceeds⟩
  · rintro ⟨k, rfl, most, proceeds⟩
    induction proceeds generalizing m with
    | here => exact .here
    | @next p q r n unended went _ ih =>
      rw [← Nat.add_assoc] at most ⊢
      refine .next unended went ?_ (ih (by omega) ?_ most)
      · rw [Nat.mod_eq_of_lt (by omega)]
        omega
      · exact fun q n proceeds => brief q _ (.next unended went proceeds)

theorem Proceeds.standing (h : Indexed t x) (proceeds : p.Proceeds t x q n)
    (standing : p.Standing t x) : q.Standing t x := by
  induction proceeds with
  | here => exact standing
  | @next p _ _ _ _ went _ ih =>
    have sound := onward_sound h standing
    rw [went] at sound
    exact ih sound.1

/-- A tape that balks once more than it has to balks again from where it halted. -/
theorem Balks.onward (balks : p.Balks t x (k + 1)) :
    p.playing = false ∧ p.remaining = 0 ∧ ¬ p.Ended ∧
      ∃ q, p.onward t x = (q, .ok ()) ∧ q.Balks t x k := by
  cases balks with
  | next halted due unended went on => exact ⟨halted, due, unended, _, went, on⟩

theorem Balks.again (kept : ∀ k, p.Balks t x k) (went : p.onward t x = (q, .ok ())) (k : Nat) :
    q.Balks t x k := by
  obtain ⟨-, -, -, q', went', on⟩ := (kept (k + 1)).onward
  obtain ⟨rfl, -⟩ := Prod.mk.inj (went'.symm.trans went)
  exact on

end Player

/-! ### Accounts -/

namespace Deck

def carrying (d : Deck) (i : Inserted) (p : Player) : Deck :=
  { d with tape := some { i with player := p } }

theorem carrying_advance {s : Store} {d : Deck} {i : Inserted} {x : Index} {p : Player}
    (index : i.index = some x) (playing : p.playing = true) (edges ticks : Nat) :
    (d.carrying i p).advance s edges ticks =
      (p.advance (i.tape s) x edges ticks).map fun r => (d.carrying i r.1, r.2) := by
  have indexed : Inserted.indexed { i with player := p } s = .ok ({ i with player := p }, x) := by
    simp only [Inserted.indexed, index]
  rw [Deck.advance]
  simp only [carrying, playing, ↓reduceIte, indexed]
  rfl

end Deck

namespace Account

open Player Deck

variable {s : Store} {d : Deck} {i : Inserted} {x : Index} {p q : Player} {fault : Fault}
  {limit : UInt64} {fuel m n : Nat} {a : Account}

def step (a : Account) (p : Player) : Account :=
  (if p.playing then a else { a with stops := a.stops + 1 }).charge p.ordinal (.ofNat p.remaining)

def Counts (a : Account) (n : Nat) : Prop := a.total.toNat = n % 2 ^ 64

theorem counts_blank (count : Nat) : (blank count).Counts 0 := rfl

theorem Counts.step (counts : a.Counts m) (p : Player) : (a.step p).Counts (m + p.remaining) := by
  have total : (a.step p).total = a.total + .ofNat p.remaining := by
    unfold Account.step
    split <;> rfl
  rw [Counts, total, UInt64.toNat_add, UInt64.toNat_ofNat', counts, ← Nat.add_mod]

theorem Counts.late_iff (counts : a.Counts m) (p : Player) :
    limit < (a.step p).total ↔ limit.toNat < (m + p.remaining) % 2 ^ 64 := by
  rw [UInt64.lt_iff_toNat_lt, counts.step p]

theorem playOn_ended (ended : p.Ended) :
    playOn s limit (fuel + 1) (d.carrying i p) a = some (d.carrying i p, .ok a) := by
  have done : (!p.playing && (p.ranOut || p.ordinal == 0)) = true := by
    simpa [Ended] using ended
  rw [playOn]
  exact if_pos done

section Step

variable (index : i.index = some x) (unended : ¬ p.Ended)
include index unended

theorem playOn_eq :
    playOn s limit (fuel + 1) (d.carrying i p) a =
      match p.resumed.advance (i.tape s) x (fuel + 1) p.remaining with
      | none => none
      | some (q, .error fault) => some (d.carrying i q, .error (.fault fault))
      | some (q, .ok played) =>
        let a := (if p.playing then a else { a with stops := a.stops + 1 }).charge p.ordinal
          (.ofNat played)
        if limit < a.total then some (d.carrying i q, .error (.tooLong p.ordinal))
        else playOn s limit fuel (d.carrying i q) a := by
  have on : ¬ (!p.playing && (p.ranOut || p.ordinal == 0)) = true := by
    simpa [Ended] using unended
  have resumed : (if (d.carrying i p).isPlaying then d.carrying i p else (d.carrying i p).play.1) =
      d.carrying i p.resumed := by
    show (if p.playing then d.carrying i p else d.carrying i p.play) = _
    unfold Player.resumed
    split <;> rfl
  have advanced :=
    carrying_advance (s := s) (d := d) index (resumed_playing p) (fuel + 1) p.remaining
  rw [playOn]
  refine (if_neg on).trans ?_
  simp only [resumed, show (d.carrying i p.resumed).cursor = p.resumed.ordinal from rfl,
    show (d.carrying i p.resumed).remaining = p.resumed.remaining from rfl, resumed_ordinal,
    resumed_remaining, advanced]
  cases p.resumed.advance (i.tape s) x (fuel + 1) p.remaining with
  | none => rfl
  | some r =>
    obtain ⟨q, fault | played⟩ := r
    · rfl
    · rfl

theorem playOn_fault (went : p.onward (i.tape s) x = (q, .error fault)) :
    playOn s limit (fuel + 1) (d.carrying i p) a =
      some (d.carrying i q.stop, .error (.fault fault)) := by
  rw [playOn_eq index unended, advance_fault went]

theorem playOn_short (went : p.onward (i.tape s) x = (q, .ok ())) :
    playOn s limit 1 (d.carrying i p) a = none := by
  rw [playOn_eq index unended, advance_short went]

variable (went : p.onward (i.tape s) x = (q, .ok ()))
  (lasts : q.playing = true → 0 < q.remaining) (counts : a.Counts m)
include went lasts counts

theorem playOn_late (late : limit.toNat < (m + p.remaining) % 2 ^ 64) :
    playOn s limit (fuel + 2) (d.carrying i p) a =
      some (d.carrying i q, .error (.tooLong p.ordinal)) := by
  rw [playOn_eq index unended, advance_onward went lasts]
  exact if_pos ((counts.late_iff p).2 late)

theorem playOn_next (within : (m + p.remaining) % 2 ^ 64 ≤ limit.toNat) :
    playOn s limit (fuel + 2) (d.carrying i p) a =
      playOn s limit (fuel + 1) (d.carrying i q) (a.step p) := by
  rw [playOn_eq index unended, advance_onward went lasts]
  exact if_neg (mt (counts.late_iff p).1 (Nat.not_lt.2 within))

end Step

/-! ### Where playing has no end -/

section Runs

variable (index : i.index = some x)
include index

/-- A tape that balks for ever is started for ever. -/
theorem playOn_balks (counts : a.Counts m) (within : m % 2 ^ 64 ≤ limit.toNat)
    (kept : ∀ k, p.Balks (i.tape s) x k) (fuel : Nat) :
    playOn s limit fuel (d.carrying i p) a = none := by
  induction fuel generalizing p a with
  | zero => rfl
  | succ fuel ih =>
    obtain ⟨-, due, unended, q, went, -⟩ := (kept 1).onward
    cases fuel with
    | zero => exact playOn_short index unended went
    | succ fuel =>
      have again := Balks.again kept went
      have silent : q.playing = true → 0 < q.remaining := by
        rw [(again 1).onward.1]
        exact fun on => absurd on Bool.false_ne_true
      have same : m + p.remaining = m := by rw [due, Nat.add_zero]
      rw [playOn_next index unended went silent counts (by rwa [same])]
      exact ih (same ▸ counts.step p) again

/-- A tape that is admitted to where it balks for ever is played without end. -/
theorem playOn_kept (lasting : p.Lasting (i.tape s) x) (counts : a.Counts m)
    (within : m % 2 ^ 64 ≤ limit.toNat)
    (admitted : p.Admitted (i.tape s) x limit.toNat m q n) (kept : ∀ k, q.Balks (i.tape s) x k)
    (fuel : Nat) : playOn s limit fuel (d.carrying i p) a = none := by
  induction admitted generalizing a fuel with
  | here => exact playOn_balks index counts within kept fuel
  | @next p q r m n unended went small on ih =>
    rcases fuel with - | - | fuel
    · rfl
    · exact playOn_short index unended went
    · rw [playOn_next index unended went (lasting.next unended went) counts small]
      exact ih (lasting.onward unended went) (counts.step p) small kept _

/-- Playing that has come to an end was admitted so far and no further. -/
theorem playOn_most (lasting : p.Lasting (i.tape s) x) (counts : a.Counts m)
    {r : Deck × Except PlayFault Account} (came : playOn s limit fuel (d.carrying i p) a = some r) :
    ∃ most, ∀ q n, p.Admitted (i.tape s) x limit.toNat m q n → n ≤ most := by
  induction fuel generalizing p a m with
  | zero => cases came
  | succ fuel ih =>
    by_cases further : ∃ q, ¬ p.Ended ∧ p.onward (i.tape s) x = (q, .ok ()) ∧
        (m + p.remaining) % 2 ^ 64 ≤ limit.toNat
    · obtain ⟨q, unended, went, within⟩ := further
      cases fuel with
      | zero =>
        rw [playOn_short index unended went] at came
        cases came
      | succ fuel =>
        rw [playOn_next index unended went (lasting.next unended went) counts within] at came
        obtain ⟨most, bound⟩ := ih (lasting.onward unended went) (counts.step p) came
        refine ⟨most, fun r n admitted => ?_⟩
        cases admitted with
        | here => exact Nat.le_trans (Nat.le_add_right ..) (bound q _ .here)
        | next _ went' _ on =>
          obtain ⟨rfl, -⟩ := Prod.mk.inj (went'.symm.trans went)
          exact bound _ _ on
    · refine ⟨m, fun r n admitted => ?_⟩
      cases admitted with
      | here => exact Nat.le_refl _
      | next unended went within => exact absurd ⟨_, unended, went, within⟩ further

theorem playOn_ends_of (lasting : p.Lasting (i.tape s) x) (counts : a.Counts m)
    (next : ∀ q, ¬ p.Ended → p.onward (i.tape s) x = (q, .ok ()) →
      (m + p.remaining) % 2 ^ 64 ≤ limit.toNat → ∃ least r, ∀ fuel, least ≤ fuel →
        playOn s limit fuel (d.carrying i q) (a.step p) = some r) :
    ∃ least r, ∀ fuel, least ≤ fuel → playOn s limit fuel (d.carrying i p) a = some r := by
  by_cases ended : p.Ended
  · refine ⟨1, (d.carrying i p, .ok a), fun fuel enough => ?_⟩
    obtain ⟨fuel, rfl⟩ := Nat.exists_eq_add_of_le' enough
    exact playOn_ended ended
  · obtain ⟨⟨q, fault | ⟨⟨⟩⟩⟩, went⟩ : ∃ r, p.onward (i.tape s) x = r := ⟨_, rfl⟩
    · refine ⟨1, (d.carrying i q.stop, .error (.fault fault)), fun fuel enough => ?_⟩
      obtain ⟨fuel, rfl⟩ := Nat.exists_eq_add_of_le' enough
      exact playOn_fault index ended went
    · have lasts := lasting.next ended went
      rcases Nat.lt_or_ge limit.toNat ((m + p.remaining) % 2 ^ 64) with late | within
      · refine ⟨2, (d.carrying i q, .error (.tooLong p.ordinal)), fun fuel enough => ?_⟩
        obtain ⟨fuel, rfl⟩ := Nat.exists_eq_add_of_le' enough
        exact playOn_late index ended went lasts counts late
      · obtain ⟨least, r, ends⟩ := next q ended went within
        refine ⟨least + 2, r, fun fuel enough => ?_⟩
        obtain ⟨fuel, rfl⟩ :=
          Nat.exists_eq_add_of_le' (Nat.le_trans (Nat.le_add_left 2 least) enough)
        rw [playOn_next index ended went lasts counts within]
        exact ends _ (by omega)

/-- Playing ends unless the tape is admitted to where it balks for ever, or to any number of ticks.
The induction is on the ticks that are left of those it can be admitted to, and among players with
the same ticks left on the starts in vain that follow. -/
theorem playOn_returns (lasting : p.Lasting (i.tape s) x) (settled : p.Settled)
    (counts : a.Counts m)
    (free : ¬ ∃ q n, p.Admitted (i.tape s) x limit.toNat m q n ∧ ∀ k, q.Balks (i.tape s) x k)
    {most : Nat} (bound : ∀ q n, p.Admitted (i.tape s) x limit.toNat m q n → n ≤ most) :
    ∃ least r, ∀ fuel, least ≤ fuel → playOn s limit fuel (d.carrying i p) a = some r := by
  obtain ⟨left, rest⟩ : ∃ left, most - m = left := ⟨_, rfl⟩
  induction left using Nat.strongRecOn generalizing p a m with
  | ind left ih =>
    obtain ⟨k, few⟩ : ∃ k, ¬ p.Balks (i.tape s) x k := by
      by_contra kept
      exact free ⟨p, m, .here, not_exists_not.1 kept⟩
    induction k generalizing p a m with
    | zero => exact absurd .here few
    | succ k again =>
      refine playOn_ends_of index lasting counts fun q unended went within => ?_
      have lasting' := lasting.onward unended went
      have settled' := settled_onward went (lasting.next unended went)
      have free' : ¬ ∃ r n, q.Admitted (i.tape s) x limit.toNat (m + p.remaining) r n ∧
          ∀ k, r.Balks (i.tape s) x k := by
        rintro ⟨r, n, admitted, kept⟩
        exact free ⟨r, n, .next unended went within admitted, kept⟩
      have bound' : ∀ r n, q.Admitted (i.tape s) x limit.toNat (m + p.remaining) r n → n ≤ most :=
        fun r n admitted => bound r n (.next unended went within admitted)
      have here : m + p.remaining ≤ most := bound' q _ .here
      rcases Nat.eq_zero_or_pos p.remaining with due | lasts
      · have halted : p.playing = false := by
          by_contra playing
          exact absurd (settled.1 (by simpa using playing)) (by omega)
        refine again lasting' settled' (counts.step p) free' bound' (by omega) fun balks => few ?_
        exact .next halted due unended went balks
      · exact ih _ (by omega) lasting' settled' (counts.step p) free' bound' rfl

/-- Playing ends where the tape is over, where it cannot be played on, or where the limit is
passed. -/
theorem playOn_outcome (lasting : p.Lasting (i.tape s) x) (counts : a.Counts m) {d' : Deck}
    {r : Except PlayFault Account}
    (came : playOn s limit fuel (d.carrying i p) a = some (d', r)) :
    ∃ q n, p.Admitted (i.tape s) x limit.toNat m q n ∧
      ((q.Ended ∧ d' = d.carrying i q ∧ ∃ a', r = .ok a') ∨
        (∃ q' fault, q.onward (i.tape s) x = (q', .error fault) ∧ r = .error (.fault fault)) ∨
        (limit.toNat < (n + q.remaining) % 2 ^ 64 ∧ r = .error (.tooLong q.ordinal))) := by
  induction fuel generalizing p a m with
  | zero => cases came
  | succ fuel ih =>
    by_cases ended : p.Ended
    · rw [playOn_ended ended] at came
      obtain ⟨rfl, rfl⟩ := Prod.mk.inj (Option.some.inj came)
      exact ⟨p, m, .here, .inl ⟨ended, rfl, a, rfl⟩⟩
    · obtain ⟨⟨q, fault | ⟨⟨⟩⟩⟩, went⟩ : ∃ r, p.onward (i.tape s) x = r := ⟨_, rfl⟩
      · rw [playOn_fault index ended went] at came
        obtain ⟨-, rfl⟩ := Prod.mk.inj (Option.some.inj came)
        exact ⟨p, m, .here, .inr (.inl ⟨q, fault, went, rfl⟩)⟩
      · have lasts := lasting.next ended went
        cases fuel with
        | zero =>
          rw [playOn_short index ended went] at came
          cases came
        | succ fuel =>
          rcases Nat.lt_or_ge limit.toNat ((m + p.remaining) % 2 ^ 64) with late | within
          · rw [playOn_late index ended went lasts counts late] at came
            obtain ⟨-, rfl⟩ := Prod.mk.inj (Option.some.inj came)
            exact ⟨p, m, .here, .inr (.inr ⟨late, rfl⟩)⟩
          · rw [playOn_next index ended went lasts counts within] at came
            obtain ⟨r, n, admitted, outcome⟩ :=
              ih (lasting.onward ended went) (counts.step p) came
            exact ⟨r, n, .next ended went within admitted, outcome⟩

end Runs

end Account

/-! ### The listing -/

theorem mapM_ok {α β ε : Type} {f : α → Except ε β} {l : List α}
    (each : ∀ a ∈ l, ∃ b, f a = .ok b) : ∃ l', l.mapM f = .ok l' := by
  induction l with
  | nil => exact ⟨[], rfl⟩
  | cons a l ih =>
    obtain ⟨b, here⟩ := each a (List.mem_cons_self ..)
    obtain ⟨l', others⟩ := ih fun a member => each a (List.mem_cons_of_mem _ member)
    refine ⟨b :: l', ?_⟩
    rw [List.mapM_cons, here, others]
    rfl

def Tape.summaries (t : Tape) : Except Fault (List Summary) :=
  match t.scan.fault with
  | some fault => .error (.ofRead fault)
  | none => t.scan.blocks.toList.zipIdx.mapM fun (b, ordinal) => Summary.ofBlock t ordinal b

theorem Indexed.summaries {t : Tape} {x : Index} (h : Indexed t x) :
    ∃ listing, t.summaries = .ok listing := by
  simp only [Tape.summaries, h.scan_sound.1]
  refine mapM_ok fun b member => ?_
  obtain ⟨o, read⟩ := h.read_of_mem (List.fst_mem_of_mem_zipIdx member)
  simp only [Summary.ofBlock, Tape.headerOf_eq h.whole read]
  exact ⟨_, rfl⟩

namespace Session

open Player Deck Account

variable {s : Store} {d : Deck} {i : Inserted} {x : Index} {p q : Player} {path : String}

theorem listing_eq (h : Indexed (i.tape s) x) (index : i.index = some x) :
    ∃ listing, (i.tape s).summaries = .ok listing ∧
      ∀ p, (d.carrying i p).listing s = (d.carrying i p, .ok listing) := by
  obtain ⟨listing, listed⟩ := h.summaries
  refine ⟨listing, listed, fun p => ?_⟩
  have indexed : Inserted.indexed { i with player := p } s = .ok ({ i with player := p }, x) := by
    simp only [Inserted.indexed, index]
  simp only [Deck.listing, onTape, carrying, indexed]
  exact congrArg (Prod.mk _) listed

theorem start_run (inserted : d.insert s path = ({ d with tape := some i }, .ok ()))
    (index : i.index = some x) :
    (start path).run ⟨s, d⟩ = (.ok x.count, ⟨s, d.carrying i i.player.play⟩) := by
  have indexed : i.indexed s = .ok (i, x) := by
    simp only [Inserted.indexed, index]
  have counted : countBlocks { d with tape := some i } s =
      ({ d with tape := some i }, .ok x.count) := by
    simp only [countBlocks, onTape, indexed]
  have played : Deck.play { d with tape := some i } = (d.carrying i i.player.play, .ok ()) := rfl
  exact (run_bind (insert_run inserted)).trans
    ((run_bind (onDeck_run counted)).trans (run_bind (onDeck_run played)))

theorem account_run (h : Indexed (i.tape s) x) (index : i.index = some x) :
    ∃ listing, (i.tape s).summaries = .ok listing ∧ ∀ a p,
      (account a).run ⟨s, d.carrying i p⟩ =
        (.ok (unlines (a.lines listing d.settings.ticksPerSecond)), ⟨s, d.carrying i p⟩) := by
  obtain ⟨listing, listed, shown⟩ := listing_eq (d := d) h index
  refine ⟨listing, listed, fun a p => ?_⟩
  rw [account, run_bind (onDeck_run (shown p))]
  rfl

theorem play_eq (inserted : d.insert s path = ({ d with tape := some i }, .ok ()))
    (index : i.index = some x) (fuel seconds : Nat) :
    play fuel path seconds ⟨s, d⟩ =
      match playOn s (.ofNat (min (seconds * d.settings.ticksPerSecond) lastTick)) fuel
        (d.carrying i i.player.play) (.blank x.count) with
      | none => none
      | some (deck, .error (.fault fault)) => some (.error (.fault fault), ⟨s, deck⟩)
      | some (deck, .error (.tooLong block)) => some (.error (.tooLong seconds block), ⟨s, deck⟩)
      | some (deck, .ok a) => some ((account a).run ⟨s, deck⟩) := by
  rw [play, start_run inserted index]
  rfl

theorem toNat_limit (ticks : Nat) :
    (UInt64.ofNat (min ticks lastTick)).toNat = min ticks lastTick := by
  apply UInt64.toNat_ofNat_of_lt'
  exact Nat.lt_of_le_of_lt (Nat.min_le_right ..) (Nat.sub_lt (by decide) Nat.one_pos)

section Play

variable (inserted : d.insert s path = ({ d with tape := some i }, .ok ()))
  (index : i.index = some x) (lasting : i.player.play.Lasting (i.tape s) x) {seconds limit : Nat}
  (limited : limit = min (seconds * d.settings.ticksPerSecond) lastTick)
include inserted index lasting limited

theorem play_kept {n : Nat} (admitted : i.player.play.Admitted (i.tape s) x limit 0 q n)
    (kept : ∀ k, q.Balks (i.tape s) x k) (fuel : Nat) :
    play fuel path seconds ⟨s, d⟩ = none := by
  rw [limited, ← toNat_limit] at admitted
  have counts := counts_blank x.count
  rw [play_eq inserted index, playOn_kept index lasting counts (Nat.zero_le _) admitted kept]

theorem play_most {fuel : Nat} {r : Except Failure String × State}
    (came : play fuel path seconds ⟨s, d⟩ = some r) :
    ∃ most, ∀ q n, i.player.play.Admitted (i.tape s) x limit 0 q n → n ≤ most := by
  rw [play_eq inserted index] at came
  rw [limited, ← toNat_limit]
  cases stepped : playOn s (.ofNat (min (seconds * d.settings.ticksPerSecond) lastTick)) fuel
      (d.carrying i i.player.play) (.blank x.count) with
  | none =>
    rw [stepped] at came
    cases came
  | some r => exact playOn_most index lasting (counts_blank _) stepped

theorem play_returns
    (free : ¬ ∃ q n, i.player.play.Admitted (i.tape s) x limit 0 q n ∧
      ∀ k, q.Balks (i.tape s) x k)
    {most : Nat} (bound : ∀ q n, i.player.play.Admitted (i.tape s) x limit 0 q n → n ≤ most) :
    ∃ fuel r, play fuel path seconds ⟨s, d⟩ = some r := by
  let p := i.player.play
  rw [limited, ← toNat_limit] at free bound
  obtain ⟨least, ⟨d', r⟩, ends⟩ : ∃ least r, ∀ fuel, least ≤ fuel →
      playOn s (.ofNat (min (seconds * d.settings.ticksPerSecond) lastTick)) fuel
        (d.carrying i p) (.blank x.count) = some r := by
    -- Nothing sounds when the tape is first started, so the first step is taken apart.
    have counts := counts_blank x.count
    refine playOn_ends_of index lasting counts fun q unended went within => ?_
    refine playOn_returns index (lasting.onward unended went)
      (settled_onward went (lasting.next unended went)) (counts.step p) ?_
      fun r n admitted => bound r n (.next unended went within admitted)
    rintro ⟨r, n, admitted, kept⟩
    exact free ⟨r, n, .next unended went within admitted, kept⟩
  refine ⟨least, ?_⟩
  rw [play_eq inserted index, ends least (Nat.le_refl _)]
  obtain (fault | block) | a := r <;> exact ⟨_, rfl⟩

theorem play_outcome {fuel : Nat} {result : Except Failure String} {st : State}
    (came : play fuel path seconds ⟨s, d⟩ = some (result, st)) :
    ∃ q n, i.player.play.Admitted (i.tape s) x limit 0 q n ∧
      ((q.Ended ∧ ∃ printed, result = .ok printed) ∨
        (∃ q' fault, q.onward (i.tape s) x = (q', .error fault) ∧ q'.Blocked (i.tape s) fault ∧
          result = .error (.fault fault)) ∨
        (limit < (n + q.remaining) % 2 ^ 64 ∧ result = .error (.tooLong seconds q.ordinal))) := by
  obtain ⟨format, fresh⟩ := Inserted.fresh_inserted inserted
  have indexed : Indexed (i.tape s) x := fresh.indexed_tape index
  have standing : i.player.play.Standing (i.tape s) x := by
    rw [fresh.player]
    exact (standing_new indexed d.settings).play
  rw [play_eq inserted index] at came
  cases stepped : playOn s (.ofNat (min (seconds * d.settings.ticksPerSecond) lastTick)) fuel
      (d.carrying i i.player.play) (.blank x.count) with
  | none =>
    rw [stepped] at came
    cases came
  | some r =>
    obtain ⟨d', r⟩ := r
    rw [stepped] at came
    obtain ⟨q, n, admitted, outcome⟩ := playOn_outcome index lasting (counts_blank _) stepped
    rw [toNat_limit, ← limited] at admitted outcome
    refine ⟨q, n, admitted, ?_⟩
    obtain ⟨ended, rfl, a, rfl⟩ | ⟨q', fault, stuck, rfl⟩ | ⟨late, rfl⟩ := outcome
    · obtain ⟨listing, -, told⟩ := account_run (d := d) indexed index
      obtain ⟨rfl, -⟩ := Prod.mk.inj ((told a q).symm.trans (Option.some.inj came))
      exact .inl ⟨ended, _, rfl⟩
    · obtain ⟨rfl, -⟩ := Prod.mk.inj (Option.some.inj came)
      obtain ⟨_, -, proceeds⟩ := admitted.proceeds
      have sound := onward_sound indexed (proceeds.standing indexed standing)
      rw [stuck] at sound
      exact .inr (.inl ⟨q', fault, stuck, sound.2 fault rfl, rfl⟩)
    · obtain ⟨rfl, -⟩ := Prod.mk.inj (Option.some.inj came)
      exact .inr (.inr ⟨late, rfl⟩)

end Play

/-- Playing a tape that lasts comes to an end unless the tape is admitted to where it balks for
ever, or the word that counts the ticks slips past the limit again and again. Then the lines about
it are printed, or the tape could not be played on at one of the faults there are, or the limit was
passed. The word only slips past where an interval and the limit together exceed it; else a tape is
admitted to whatever it comes to before the limit is passed. -/
theorem play_ends (inserted : d.insert s path = ({ d with tape := some i }, .ok ()))
    (index : i.index = some x) (lasting : i.player.play.Lasting (i.tape s) x) (seconds : Nat) :
    let t := i.tape s
    let p := i.player.play
    let limit := min (seconds * d.settings.ticksPerSecond) lastTick
    ((∃ fuel r, play fuel path seconds ⟨s, d⟩ = some r) ↔
      (¬ ∃ q n, p.Admitted t x limit 0 q n ∧ ∀ k, q.Balks t x k) ∧
        ∃ most, ∀ q n, p.Admitted t x limit 0 q n → n ≤ most) ∧
    (∀ fuel result st, play fuel path seconds ⟨s, d⟩ = some (result, st) →
      ∃ q n, p.Admitted t x limit 0 q n ∧
        ((q.Ended ∧ ∃ printed, result = .ok printed) ∨
          (∃ q' fault, q.onward t x = (q', .error fault) ∧ q'.Blocked t fault ∧
            result = .error (.fault fault)) ∨
          (limit < (n + q.remaining) % 2 ^ 64 ∧ result = .error (.tooLong seconds q.ordinal)))) ∧
    ((∀ q n, p.Proceeds t x q n → q.remaining + limit ≤ lastTick) → ∀ q n,
      p.Admitted t x limit 0 q n ↔ p.Proceeds t x q n ∧ n ≤ limit) := by
  refine ⟨⟨?_, ?_⟩, ?_, ?_⟩
  · rintro ⟨fuel, r, came⟩
    refine ⟨?_, play_most inserted index lasting rfl came⟩
    rintro ⟨q, n, admitted, kept⟩
    cases came.symm.trans (play_kept inserted index lasting rfl admitted kept fuel)
  · rintro ⟨free, most, bound⟩
    exact play_returns inserted index lasting rfl free bound
  · intro fuel result st came
    exact play_outcome inserted index lasting rfl came
  · intro brief q n
    rw [admitted_iff (Nat.zero_le _) (Nat.min_le_right ..) brief]
    simp only [Nat.zero_add, exists_eq_left', and_comm]

def oneImage (blocks : Bytes) : Store :=
  ⟨"/", [], [(["a.tzx".toList], 0)], #[Tzx.magic ++ #[1, 20] ++ blocks], []⟩

def oneTape (size count : Nat) : Inserted :=
  ⟨"a.tzx", .tzx, 0, size + 10, some (1, 20), false, some ⟨#[10], count⟩, .new .standard 10, .empty⟩

/-- A pulse, a block at which the tape halts, and another pulse. -/
theorem play_ends_pulses :
    let s := oneImage #[0x12, 100, 0, 1, 0, 0x20, 0, 0, 0x12, 100, 0, 1, 0]
    let i := oneTape 13 3
    (Deck.new .standard).insert s "a.tzx" = ({ Deck.new .standard with tape := some i }, .ok ()) ∧
      i.index = some ⟨#[10], 3⟩ ∧ i.player.play.Lasting (i.tape s) ⟨#[10], 3⟩ ∧
      ∃ fuel r, play fuel "a.tzx" 1 ⟨s, Deck.new .standard⟩ = some r := by
  intro s i
  let t := i.tape s
  let x : Index := ⟨#[10], 3⟩
  have fresh : i.Fresh s "a.tzx" .tzx .standard :=
    ⟨rfl, rfl, by decide +kernel, rfl, by decide +kernel, by decide +kernel, rfl, rfl, rfl⟩
  have inserted := fresh.insert_eq (d := Deck.new .standard) (by decide)
  -- All that the player comes to be: it plays, sounds, halts, sounds again, and runs out.
  let p := i.player.play
  let q : Player := { p with behind := 15, head := 15, phase := .tone 100 0, level := true,
                             remaining := 100 }
  let p' : Player := { p with ordinal := 2, offset := 18, behind := 18, head := 18, level := true,
                              playing := false }
  let q' : Player := { p' with behind := 23, head := 23, phase := .tone 100 0, level := false,
                               remaining := 100, playing := true }
  let last : Player := { p with head := 23, playing := false, ranOut := true }
  have first : p.onward t x = (q, .ok ()) := by decide +kernel
  have second : q.onward t x = (p', .ok ()) := by decide +kernel
  have third : p'.onward t x = (q', .ok ()) := by decide +kernel
  have fourth : q'.onward t x = (last, .ok ()) := by decide +kernel
  let Some (r : Player) : Prop := r = p ∨ r = q ∨ r = p' ∨ r = q' ∨ r = last
  have step : ∀ r r', Some r → ¬ r.Ended → r.onward t x = (r', .ok ()) → Some r' ∧
      (r'.playing = true → 0 < r'.remaining) := by
    rintro r r' (rfl | rfl | rfl | rfl | rfl) unended went
    · cases first.symm.trans went
      exact ⟨.inr (.inl rfl), fun _ => by decide⟩
    · cases second.symm.trans went
      exact ⟨.inr (.inr (.inl rfl)), nofun⟩
    · cases third.symm.trans went
      exact ⟨.inr (.inr (.inr (.inl rfl))), fun _ => by decide⟩
    · cases fourth.symm.trans went
      exact ⟨.inr (.inr (.inr (.inr rfl))), nofun⟩
    · exact absurd ⟨rfl, .inl rfl⟩ unended
  have reached {r : Player} {n : Nat} (proceeds : p.Proceeds t x r n) : Some r :=
    proceeds.keeps (.inl rfl) fun r r' member unended went => (step r r' member unended went).1
  have lasting : p.Lasting t x := lasting_of_invariant (.inl rfl) step
  obtain ⟨returns, -, admitted⟩ := play_ends inserted rfl lasting 1
  have admitted := admitted fun r n proceeds => by
    obtain rfl | rfl | rfl | rfl | rfl := reached proceeds <;> decide
  refine ⟨inserted, rfl, lasting, returns.2 ⟨?_, _, fun r n run => ((admitted r n).1 run).2⟩⟩
  rintro ⟨r, n, run, kept⟩
  have proceeds := ((admitted r n).1 run).1
  obtain ⟨halted, -, unended, r', went, again⟩ := (kept 2).onward
  obtain rfl | rfl | rfl | rfl | rfl := reached proceeds
  · cases halted
  · cases halted
  · cases third.symm.trans went
    cases again.onward.1
  · cases halted
  · exact unended ⟨rfl, .inl rfl⟩

/-- A pulse, a block at which the tape halts, and a jump back to that: every interval lasts, and
yet the tape is played without end. -/
theorem answer_never :
    let s := oneImage #[0x12, 100, 0, 1, 0, 0x20, 0, 0, 0x23, 0xFF, 0xFF]
    let i := oneTape 11 3
    (Deck.new .standard).insert s "a.tzx" = ({ Deck.new .standard with tape := some i }, .ok ()) ∧
      i.player.play.Lasting (i.tape s) ⟨#[10], 3⟩ ∧
      ∀ fuel, answer fuel ["play", "a.tzx"] s = none := by
  intro s i
  let t := i.tape s
  let x : Index := ⟨#[10], 3⟩
  have fresh : i.Fresh s "a.tzx" .tzx .standard :=
    ⟨rfl, rfl, by decide +kernel, rfl, by decide +kernel, by decide +kernel, rfl, rfl, rfl⟩
  have inserted := fresh.insert_eq (d := Deck.new .standard) (by decide)
  let p := i.player.play
  let q : Player := { p with behind := 15, head := 15, phase := .tone 100 0, level := true,
                             remaining := 100 }
  let p' : Player := { p with ordinal := 2, offset := 18, behind := 18, head := 18, level := true,
                              playing := false }
  have first : p.onward t x = (q, .ok ()) := by decide +kernel
  have second : q.onward t x = (p', .ok ()) := by decide +kernel
  have third : p'.onward t x = (p', .ok ()) := by decide +kernel
  let Some (r : Player) : Prop := r = p ∨ r = q ∨ r = p'
  have step : ∀ r r', Some r → ¬ r.Ended → r.onward t x = (r', .ok ()) → Some r' ∧
      (r'.playing = true → 0 < r'.remaining) := by
    rintro r r' (rfl | rfl | rfl) - went
    · cases first.symm.trans went
      exact ⟨.inr (.inl rfl), fun _ => by decide⟩
    · cases second.symm.trans went
      exact ⟨.inr (.inr rfl), nofun⟩
    · cases third.symm.trans went
      exact ⟨.inr (.inr rfl), nofun⟩
  have lasting : p.Lasting t x := lasting_of_invariant (.inl rfl) step
  have unended : ¬ p'.Ended := by
    rintro ⟨-, out | zero⟩
    · cases out
    · cases zero
  have balks (k : Nat) : p'.Balks t x k := by
    induction k with
    | zero => exact .here
    | succ k ih => exact .next rfl rfl unended third ih
  have on {r : Player} (playing : r.playing = true) : ¬ r.Ended := fun ended =>
    absurd (playing.symm.trans ended.1) Bool.false_ne_true.symm
  have limited : min (3600 * (Deck.new .standard).settings.ticksPerSecond) lastTick =
      12600000000 := by
    decide +kernel
  have admitted : p.Admitted t x 12600000000 0 p' 100 :=
    .next (on rfl) first (by decide) (.next (on rfl) second (by decide) .here)
  have asked : Request.ofArguments ["play", "a.tzx"] = .run ⟨none, .play "a.tzx" 3600⟩ := by
    decide +kernel
  refine ⟨inserted, lasting, fun fuel => ?_⟩
  have played : play fuel "a.tzx" 3600 ⟨s, Deck.new .standard⟩ = none :=
    play_kept inserted rfl lasting limited.symm admitted balks fuel
  rw [answer, asked]
  show (play fuel "a.tzx" 3600 ⟨s, Deck.new .standard⟩).map _ = none
  rw [played]
  rfl

end Session

end Cassette
