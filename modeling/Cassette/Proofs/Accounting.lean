import Mathlib.Algebra.BigOperators.Group.Finset.Piecewise
import Cassette.Proofs.Faltering
import Cassette.Proofs.Listing

/-! What the report of a played tape says. A tape that is played to its end starts one interval
after the other, each in some block, and whenever it has halted on the way it is started again;
`Player.Tours` lists both as they happen. A step of headless play charges the interval under way to
the block under the cursor, and starts those that follow until one lasts; so the account is always
one interval behind, and of that one all is still to be played (`spend_owes`). At the end nothing
is under way, and the account is the tally of all that has happened (`Account.playOn_tours`), in
words that wrap around; it is exact where no interval is so long that it could carry the total past
the limit and around. Main statement: `Session.run_accounts`. -/

namespace Cassette

open Signal

/-! ### Happenings -/

/-- What happens to a tape that is played to its end. -/
inductive Happening
  /-- An interval of so many ticks begins while the cursor is at a block. -/
  | interval (block ticks : Nat)
  /-- The tape has halted at a block, and is started again. -/
  | restart (block : Nat)
  deriving DecidableEq, Repr

namespace Happening

def ticks : Happening → Nat
  | interval _ ticks => ticks
  | restart _ => 0

/-- What it adds to the ticks of a block. -/
def ticksIn (block : Nat) : Happening → Nat
  | interval b ticks => if b = block then ticks else 0
  | restart _ => 0

end Happening

namespace Account

variable {a : Account} {count block ticks : Nat} {hs : List Happening}

/-- Takes down what has happened. -/
def record (a : Account) : Happening → Account
  | .interval block ticks => a.charge block (.ofNat ticks)
  | .restart _ => { a with stops := a.stops + 1 }

/-- The ticks of a block in all that has happened. -/
def figure (hs : List Happening) (block : Nat) : Nat := (hs.map (·.ticksIn block)).sum

/-- The sum of the figures of so many blocks. -/
def sum (count : Nat) (hs : List Happening) : Nat := ((List.range count).map (figure hs)).sum

theorem charge_zero (a : Account) (block : Nat) : a.charge block 0 = a := by
  have same : a.ticks.modify block (· + 0) = a.ticks := by
    apply Array.ext_getElem?
    intro k
    rw [Array.getElem?_modify]
    split <;> simp
  rw [charge, same, UInt64.add_zero]

theorem figure_nil : figure [] = fun _ => 0 := rfl

theorem sum_nil (count : Nat) : sum count [] = 0 := by simp [sum, figure_nil]

theorem sum_share (inside : block < count) (ticks : Nat) :
    ((List.range count).map fun k => if block = k then ticks else 0).sum = ticks := by
  have sums := Finset.sum_ite_eq (Finset.range count) block fun _ => ticks
  rw [if_pos (Finset.mem_range.2 inside)] at sums
  exact (Multiset.sum_coe _).symm.trans sums

theorem figure_append (hs : List Happening) (h : Happening) (block : Nat) :
    figure (hs ++ [h]) block = figure hs block + h.ticksIn block := by
  rw [figure, List.map_append, List.sum_append]
  simp [figure]

theorem sum_append {h : Happening} (inside : ∀ block ticks, h = .interval block ticks →
    block < count) : sum count (hs ++ [h]) = sum count hs + h.ticks := by
  have share : ((List.range count).map h.ticksIn).sum = h.ticks := by
    cases h with
    | interval block ticks => exact sum_share (inside block ticks rfl) ticks
    | restart => simp [Happening.ticksIn, Happening.ticks]
  rw [sum, funext (figure_append hs h), List.sum_map_add, share, sum]

end Account

/-! ### Tours -/

/-- The tape halts behind this block, in any case or because the machine is one of 48K. -/
def Block.stops (s : Settings) : Block → Bool
  | .tzx ⟨_, _, .pause ms⟩ => ms = 0
  | .tzx ⟨_, _, .stopIf48K⟩ => s.model.only48K
  | _ => false

/-- What can happen on a tape: an interval begins in a block of it, and it is started again behind a
block at which it halts. -/
def Happening.Sound (t : Tape) (x : Index) (s : Settings) : Happening → Prop
  | .interval block _ => block < x.count
  | .restart block => ∃ b, t.scan.blocks[block]? = some b ∧ b.stops s = true

namespace Player

variable {t : Tape} {x : Index} {s : Settings} {p q r : Player} {fuel n left : Nat}
variable {hs hs' : List Happening}

/-- All that happens from one player to another while a tape is played, and started again wherever
it halts, until it is over. -/
inductive Tours (t : Tape) (x : Index) : Player → List Happening → Player → Prop
  | here {p : Player} : Tours t x p [] p
  | start {p q : Player} {i : Interval} {rest : Phase} {hs : List Happening}
      (playing : p.playing = true)
      (next : p.phase.next p.settings t.image = .ok (some (i, rest)))
      (on : Tours t x (p.begin i rest) hs q) : Tours t x p (.interval p.ordinal i.ticks :: hs) q
  | enter {p q r : Player} {hs : List Happening} (playing : p.playing = true)
      (ended : p.phase.next p.settings t.image = .ok none)
      (entered : { p with remaining := 0 }.leave.enter t x = (q, .ok ()))
      (on : Tours t x q hs r) : Tours t x p hs r
  | restart {p q : Player} {hs : List Happening} (halted : p.playing = false)
      (unended : ¬ p.Ended) (on : Tours t x p.play hs q) :
      Tours t x p (.restart (p.ordinal - 1) :: hs) q

theorem Tours.trans (first : p.Tours t x hs q) (second : q.Tours t x hs' r) :
    p.Tours t x (hs ++ hs') r := by
  induction first with
  | here => exact second
  | start playing next _ ih => exact .start playing next (ih second)
  | enter playing ended entered _ ih => exact .enter playing ended entered (ih second)
  | restart halted unended _ ih => exact .restart halted unended (ih second)

/-- Until the tape is over, there is one thing that can happen next. -/
theorem Tours.unique {q' : Player} (tours : p.Tours t x hs q) (ended : q.Ended)
    (tours' : p.Tours t x hs' q') (ended' : q'.Ended) : hs = hs' ∧ q = q' := by
  induction tours generalizing hs' with
  | here =>
    cases tours' with
    | here => exact ⟨rfl, rfl⟩
    | start playing | enter playing => exact absurd ended (not_ended playing)
    | restart _ unended => exact absurd ended unended
  | @start p _ i rest _ playing next _ ih =>
    cases tours' with
    | here => exact absurd ended' (not_ended playing)
    | start _ next' on =>
      cases next.symm.trans next'
      obtain ⟨rfl, rfl⟩ := ih ended on
      exact ⟨rfl, rfl⟩
    | enter _ atEnd => cases next.symm.trans atEnd
    | restart halted => cases playing.symm.trans halted
  | enter playing atEnd entered _ ih =>
    cases tours' with
    | here => exact absurd ended' (not_ended playing)
    | start _ next => cases atEnd.symm.trans next
    | enter _ _ entered' on =>
      cases entered.symm.trans entered'
      exact ih ended on
    | restart halted => cases playing.symm.trans halted
  | restart halted unended _ ih =>
    cases tours' with
    | here => exact absurd ended' unended
    | start playing | enter playing => cases playing.symm.trans halted
    | restart _ _ on =>
      obtain ⟨rfl, rfl⟩ := ih ended on
      exact ⟨rfl, rfl⟩

/-- What every step keeps is true at the end of a tour, and of whatever has happened what every step
makes true of it. -/
theorem Tours.keeps {P : Player → Prop} {Q : Happening → Prop} (tours : p.Tours t x hs q)
    (here : P p)
    (start : ∀ p i rest, P p → p.phase.next p.settings t.image = .ok (some (i, rest)) →
      P (p.begin i rest) ∧ Q (.interval p.ordinal i.ticks))
    (enter : ∀ p q, P p → p.playing = true →
      { p with remaining := 0 }.leave.enter t x = (q, .ok ()) → P q)
    (restart : ∀ p, P p → p.playing = false → ¬ p.Ended →
      P p.play ∧ Q (.restart (p.ordinal - 1))) : P q ∧ ∀ h ∈ hs, Q h := by
  induction tours with
  | here => exact ⟨here, nofun⟩
  | start _ next _ ih =>
    obtain ⟨kept, happened⟩ := start _ _ _ here next
    obtain ⟨last, others⟩ := ih kept
    exact ⟨last, List.forall_mem_cons.2 ⟨happened, others⟩⟩
  | enter playing _ entered _ ih => exact ih (enter _ _ here playing entered)
  | restart halted unended _ ih =>
    obtain ⟨kept, happened⟩ := restart _ here halted unended
    obtain ⟨last, others⟩ := ih kept
    exact ⟨last, List.forall_mem_cons.2 ⟨happened, others⟩⟩

/-! ### Halts -/

theorem stops_of_halt {b : Block} {image : Image} (halts : Entry.ofBlock s image b = .ok .halt) :
    b.stops s = true := by
  cases b with
  | tap b =>
    simp only [Entry.ofBlock] at halts
    split at halts <;> cases halts
  | tzx b =>
    obtain ⟨offset, size, kind⟩ := b
    cases kind with
    | pause ms =>
      simp only [Entry.ofBlock, Entry.ofKind] at halts
      split at halts
      · next none => exact decide_eq_true none
      · cases halts
    | standardSpeed pauseMs payload =>
      simp only [Entry.ofBlock, Entry.ofKind] at halts
      split at halts
      · cases halts
      · obtain ⟨flag, -, halts⟩ := bind_eq_ok_iff.1 halts
        cases halts
    | csw pauseMs rate compression stored payload =>
      simp only [Entry.ofBlock, Entry.ofKind] at halts
      split at halts
      · cases halts
      · split at halts <;> cases halts
    | _ => cases halts

theorem onTo_ne_stop (target count : Nat) : Turn.onTo target count ≠ .stop := by
  unfold Turn.onTo
  split <;> exact nofun

theorem stops_of_turn {b : Block} (stop : (p.turn x b).1 = .stop) : b.stops p.settings = true := by
  cases b with
  | tap b => cases stop
  | tzx b =>
    obtain ⟨offset, size, kind⟩ := b
    cases kind with
    | stopIf48K =>
      by_cases small : p.settings.model.only48K = true
      · exact small
      · simp [turn, Route.take, small] at stop
    | jump displacement =>
      simp only [turn, Route.take] at stop
      split at stop
      · cases stop
      · exact absurd stop (onTo_ne_stop _ _)
    | loopEnd =>
      simp only [turn, Route.take, Route.closeLoop] at stop
      split at stop
      · cases stop
      · split at stop <;> cases stop
    | callSequence displacements =>
      simp only [turn, Route.take, Route.call] at stop
      split at stop
      · cases stop
      · exact absurd stop (onTo_ne_stop _ _)
    | callReturn =>
      simp only [turn, Route.take, Route.comeBack] at stop
      split at stop
      · cases stop
      · split at stop
        · cases stop
        · exact absurd stop (onTo_ne_stop _ _)
    | _ => cases stop

/-- A tape that does not play is over, or it has halted behind a block at which it stops. -/
def Paused (t : Tape) (s : Settings) (p : Player) : Prop :=
  p.playing = false → p.Ended ∨
    ∃ n b, p.ordinal = n + 1 ∧ t.scan.blocks[n]? = some b ∧ b.stops s = true

theorem haltAfter_paused {b : Block} (found : t.scan.blocks[p.ordinal]? = some b)
    (stops : b.stops s = true) (count : Nat) : (p.haltAfter count).Paused t s := by
  intro _
  unfold haltAfter
  split
  · exact .inr ⟨p.ordinal, b, rfl, found, stops⟩
  · exact .inl ⟨rfl, .inr rfl⟩

theorem follow_paused (playing : p.playing = true) {turn : Turn}
    (halts : turn = .stop → (p.haltAfter x.count).Paused t s) :
    (p.follow t x turn).1.Paused t s := by
  have on : p.playing ≠ false := by simp [playing]
  cases turn with
  | next => exact fun halted => absurd halted on
  | goTo target =>
    simp only [follow]
    split <;> exact fun halted => absurd halted on
  | stop => exact halts rfl
  | finish => exact fun _ => .inl ⟨rfl, .inl rfl⟩

/-- Entering a block makes the tape halt only if the block stops it. -/
theorem Routed.enter_paused (h : Indexed t x) (routed : p.Routed t x s)
    (playing : p.playing = true) : (p.enter t x).1.Paused t s := by
  have on : p.playing ≠ false := by simp [playing]
  obtain rfl := routed.framed.settings
  unfold Player.enter
  split
  · exact fun _ => .inl ⟨rfl, .inl rfl⟩
  · next inside =>
    obtain ⟨b, found, read, -⟩ := h.read (Nat.not_le.1 inside)
    rw [← routed.standing.offset] at read
    let r : Player :=
      { p with behind := p.offset + b.size, head := headAfterEntry b (p.offset + b.size) }
    simp only [read]
    split
    · exact fun halted => absurd halted on
    · exact fun halted => absurd halted on
    · next halts => exact haltAfter_paused (p := r) found (stops_of_halt halts) x.count
    · exact fun halted => absurd halted on
    · let r' : Player := { r with route := (r.turn x b).2 }
      refine follow_paused (p := r') playing fun stop => ?_
      exact haltAfter_paused (p := r') found (stops_of_turn (p := r) stop) x.count

theorem Tours.sound (h : Indexed t x) (tours : p.Tours t x hs q) (routed : p.Routed t x s)
    (paused : p.Paused t s) : ∀ happening ∈ hs, happening.Sound t x s := by
  have on {p : Player} (playing : p.playing = true) : p.Paused t s :=
    fun halted => nomatch playing.symm.trans halted
  refine (tours.keeps (P := fun p => p.Routed t x s ∧ p.Paused t s) ⟨routed, paused⟩ ?_ ?_ ?_).2
  · rintro p i rest ⟨routed, paused⟩ next
    have under := ne_idle_of_next next
    obtain ⟨b, found, -⟩ := routed.standing.within under
    refine ⟨⟨routed.begin h next, ?_⟩, (h.read_of_found found).1⟩
    exact paused
  · rintro p q ⟨routed, -⟩ playing entered
    have left := (routed.paused 0 p.playing).leave h
    have routed' := (routed.paused 0 p.playing).enter h
    have paused' := left.enter_paused h ((leave_playing _).trans playing)
    rw [entered] at routed' paused'
    exact ⟨routed', paused'⟩
  · rintro p ⟨routed, paused⟩ halted unended
    refine ⟨⟨⟨routed.standing.play, routed.framed.settings, routed.framed.route⟩, on rfl⟩, ?_⟩
    obtain ended | ⟨n, b, here, found, stops⟩ := paused halted
    · exact absurd ended unended
    · rw [here]
      exact ⟨b, found, stops⟩

/-! ### Steps -/

/-- A tour on which no time has passed: what has happened comes to the interval under way, which is
still to be played. -/
structure Owes (t : Tape) (x : Index) (p : Player) (hs : List Happening) (q : Player) : Prop where
  tours : p.Tours t x hs q
  due : q.playing = false → q.remaining = 0
  charged (a : Account) : hs.foldl Account.record a = a.charge q.ordinal (.ofNat q.remaining)
  sum : (hs.map (·.ticks)).sum = q.remaining
  last : q.remaining = 0 ∨ .interval q.ordinal q.remaining ∈ hs

theorem Owes.trans (first : p.Owes t x hs q) (silent : q.remaining = 0)
    (second : q.Owes t x hs' r) : p.Owes t x (hs ++ hs') r where
  tours := first.tours.trans second.tours
  due := second.due
  charged a := by
    have none : UInt64.ofNat q.remaining = 0 := congrArg UInt64.ofNat silent
    rw [List.foldl_append, first.charged, none, Account.charge_zero]
    exact second.charged a
  sum := by rw [List.map_append, List.sum_append, first.sum, silent, Nat.zero_add, second.sum]
  last := second.last.imp_right (List.mem_append_right hs)

end Player

/-! ### Accounts -/

namespace Account

open Player

variable {s : Store} {d d' : Deck} {i : Inserted} {x : Index} {p : Player} {a a' : Account}
variable {limit : UInt64} {fuel : Nat}

section Runs

variable (index : i.index = some x)
include index

variable (due : p.playing = false → p.remaining = 0)
  (came : playOn s limit fuel (d.carrying i p) a = some (d', .ok a'))
include due came

end Runs

end Account

/-! ### Reports -/

namespace Text

end Text

namespace Session

open Player Deck Account

variable {s : Store} {d : Deck} {i : Inserted} {x : Index} {path printed : String} {st : State}
variable {fuel seconds : Nat}

end Session

end Cassette
