import Cassette.Index
import Cassette.Route
import Cassette.Signal.Phase

/-! The player: a cursor on a tape and the signal it gives. The caller brings the
clock. `advance` lets ticks pass and applies every change of level that falls into
them; where a level ends, `startInterval` walks on to the next interval through the
blocks that take no time. A walk that enters too many blocks without finding an
interval is reported as endless. Intervals of no length pass in no time, and a tape
that gives nothing else in a circle would keep `advance` for ever, so it is given
the number of edges it may apply. Main statement: `spend_of_le`, that number does not
show in the answer. -/

namespace Cassette

open Signal

structure Player where
  settings : Settings
  /-- Where block 0 starts. -/
  start : Nat
  /-- The block under the cursor. -/
  ordinal : Nat
  /-- Where it starts. -/
  offset : Nat
  /-- Where the block behind it starts, once it has been entered. -/
  behind : Nat
  phase : Phase
  level : Bool
  /-- The ticks until the level can next change. -/
  remaining : Nat
  playing : Bool
  /-- The tape has run off its end and was rewound. -/
  ranOut : Bool
  route : Route
  /-- Where reading has left the head. -/
  head : Nat
  deriving DecidableEq

namespace Player

/-- At the first block, stopped. -/
def new (settings : Settings) (start : Nat) : Player where
  settings := settings
  start := start
  ordinal := 0
  offset := start
  behind := start
  phase := .idle
  level := false
  remaining := 0
  playing := false
  ranOut := false
  route := .fresh
  head := start

def play (p : Player) : Player := { p with playing := true, ranOut := false }

/-- Stops where it is; `play` goes on in the middle of the interval. -/
def stop (p : Player) : Player := { p with playing := false }

/-- The byte position of the cursor. -/
def position (p : Player) : Nat := p.phase.position?.getD p.offset

/-- Moves the cursor to a block and forgets what was under way. -/
def moveTo (p : Player) (ordinal offset : Nat) : Player :=
  { p with ordinal, offset, behind := offset, phase := .idle, remaining := 0, route := .fresh }

/-- Stops and moves to the block that starts at an offset. -/
def seek (p : Player) (ordinal offset : Nat) : Player := (p.moveTo ordinal offset).stop

def rewind (p : Player) : Player := p.seek 0 p.start

/-! ### Entering blocks -/

/-- The end of the tape: rewound and stopped. -/
def runOut (p : Player) : Player := { p.rewind with ranOut := true }

/-- Halts behind the block under the cursor, or at block 0 behind the last. -/
def haltAfter (p : Player) (count : Nat) : Player :=
  if p.ordinal + 1 < count then
    { p with playing := false, phase := .idle, ordinal := p.ordinal + 1, offset := p.behind }
  else
    { p with playing := false, phase := .idle, ordinal := 0, offset := p.start, route := .fresh }

/-- Goes where a block that takes no time leads. -/
def follow (p : Player) (t : Tape) (x : Index) : Turn → Player × Except Fault Unit
  | .next => ({ p with phase := .done }, .ok ())
  | .goTo ordinal =>
    let head := x.headAfterLocate t ordinal p.head
    match x.locate t ordinal with
    | .error fault => ({ p with head }, .error fault)
    | .ok offset => ({ p with ordinal, offset, phase := .idle, head }, .ok ())
  | .stop => (p.haltAfter x.count, .ok ())
  | .finish => (p.runOut, .ok ())

/-- What a block that takes no time does to the route. -/
def turn (p : Player) (x : Index) : Block → Turn × Route
  | .tap _ => (.next, p.route)
  | .tzx b => p.route.take p.ordinal b.kind x.count p.settings.model.only48K

/-- Where the head stands after a block has been entered: behind it, or behind the
flag that was read. -/
def headAfterEntry (b : Block) (next : Nat) : Nat :=
  match b with
  | .tzx b =>
    match b.kind with
    | .standardSpeed _ payload => if payload.length = 0 then next else payload.offset + 1
    | _ => next
  | .tap _ => next

/-- Enters the block under the cursor. -/
def enter (p : Player) (t : Tape) (x : Index) : Player × Except Fault Unit :=
  if x.count ≤ p.ordinal then (p.runOut, .ok ())
  else
    match t.blockAt? p.offset with
    | .error fault => ({ p with head := p.offset }, .error (.ofRead fault))
    | .ok none => ({ p with head := p.offset }, .error (.indexMismatch p.ordinal))
    | .ok (some b) =>
      let next := p.offset + b.size
      let p := { p with behind := next, head := headAfterEntry b next }
      match Entry.ofBlock p.settings t.image b with
      | .error fault => (p, .error fault)
      | .ok (.signal phase) => ({ p with phase }, .ok ())
      | .ok .halt => (p.haltAfter x.count, .ok ())
      | .ok (.setLevel level) => ({ p with level, phase := .done }, .ok ())
      | .ok .route =>
        let (turn, route) := p.turn x b
        { p with route }.follow t x turn

/-! ### Edges -/

/-- Starts an interval. The head has moved if a payload byte was read for it. -/
def begin (p : Player) (interval : Interval) (rest : Phase) : Player :=
  { p with
    level := interval.swing.apply p.level
    remaining := interval.ticks
    phase := rest
    head :=
      match rest.position? with
      | some position => if p.phase.position? = some position then p.head else position
      | none => p.head }

/-- Leaves a block that is over; in front of a block there is nothing to leave. -/
def leave (p : Player) : Player :=
  match p.phase with
  | .idle => p
  | _ => { p with ordinal := p.ordinal + 1, offset := p.behind, phase := .idle }

/-- The blocks that one walk may enter. -/
def walkLimit : Nat := 0x100000

/-- Gives a block up because of its payload: it will have to be entered anew. The head
has passed the payload byte, if there is one. -/
def abandon (p : Player) (length : Nat) : Player :=
  { p with
    phase := .idle
    head :=
      match p.phase.position? with
      | some position => if position < length then position + 1 else p.head
      | none => p.head }

/-- Starts the next interval, entering at most `budget` blocks for it. -/
def walk (t : Tape) (x : Index) : (budget : Nat) → Player → Player × Except Fault Unit
  | budget, p =>
    if p.playing then
      match p.phase.next p.settings t.image with
      | .error fault => (p.abandon t.length, .error fault)
      | .ok (some (interval, rest)) => (p.begin interval rest, .ok ())
      | .ok none =>
        match budget with
        | 0 => (p.leave, .error (.endlessWalk p.leave.ordinal))
        | budget + 1 =>
          match p.leave.enter t x with
          | (q, .error fault) => (q, .error fault)
          | (q, .ok ()) => walk t x budget q
    else (p, .ok ())

def startInterval (p : Player) (t : Tape) (x : Index) : Player × Except Fault Unit :=
  walk t x walkLimit p

/-- Lets `left` ticks pass, applying fewer than `fuel` edges; gives the ticks that the
tape did not play. None if that many edges were not enough. -/
def spend (t : Tape) (x : Index) : (fuel : Nat) → Player → (left : Nat) →
    Option (Player × Except Fault Nat)
  | 0, _, _ => none
  | fuel + 1, p, left =>
    if p.playing then
      if left < p.remaining then some ({ p with remaining := p.remaining - left }, .ok 0)
      else
        match { p with remaining := 0 }.startInterval t x with
        | (q, .error fault) => some (q.stop, .error fault)
        | (q, .ok ()) => spend t x fuel q (left - p.remaining)
    else some (p, .ok left)

/-- More edges than were needed change nothing. -/
theorem spend_of_le {t : Tape} {x : Index} {fuel more : Nat} {p : Player} {left : Nat}
    {r : Player × Except Fault Nat} (h : spend t x fuel p left = some r) (hle : fuel ≤ more) :
    spend t x more p left = some r := by
  induction fuel generalizing more p left with
  | zero => simp [spend] at h
  | succ fuel ih =>
    obtain ⟨more, rfl⟩ := Nat.exists_eq_add_one_of_ne_zero (by omega : more ≠ 0)
    rw [spend] at h ⊢
    split at h
    · next playing =>
      rw [if_pos playing]
      split at h
      · next early => rwa [if_pos early]
      · next late =>
        rw [if_neg late]
        split at h
        · exact h
        · exact ih h (by omega)
    · next stopped => rwa [if_neg stopped]

/-- Lets ticks pass; gives the ticks played, fewer than asked for if the tape stops. A
fault stops the tape. -/
def advance (p : Player) (t : Tape) (x : Index) (fuel ticks : Nat) :
    Option (Player × Except Fault Nat) :=
  (spend t x fuel p ticks).map fun (q, left) => (q, left.map (ticks - ·))

end Player

end Cassette
