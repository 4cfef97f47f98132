import Cassette.Deck
import Cassette.Proofs.Slicing

/-! Browsing does not disturb playback. The player of a tape and whoever looks at its blocks read
the same file, and share the head that reads it as well as the index. Nothing the player does
depends on where it finds the head (`Player.advance_leftAt`), and a look at the tape leaves
everything else that playback depends on as it was (`Deck.Look.alike`). Main statement:
`Deck.watch_filter`, looks can be left out of what is done with a deck, wherever they stand. -/

namespace Cassette

open Signal

/-! ### The head -/

namespace Player

def leftAt (p : Player) (head : Nat) : Player := { p with head }

@[simp] theorem leftAt_settings (p : Player) (head : Nat) : (p.leftAt head).settings = p.settings :=
  rfl

@[simp] theorem leftAt_ordinal (p : Player) (head : Nat) : (p.leftAt head).ordinal = p.ordinal :=
  rfl

@[simp] theorem leftAt_phase (p : Player) (head : Nat) : (p.leftAt head).phase = p.phase := rfl

@[simp] theorem leftAt_playing (p : Player) (head : Nat) : (p.leftAt head).playing = p.playing :=
  rfl

theorem leave_leftAt (p : Player) (head : Nat) : (p.leftAt head).leave = p.leave.leftAt head := by
  obtain ⟨settings, start, ordinal, offset, behind, phase⟩ := p
  cases phase <;> rfl

/-- A block is read where it starts, and then the head stands behind what was read of it. Only
the end of the tape is found without moving the head. -/
theorem enter_leftAt (t : Tape) (x : Index) (p : Player) (head : Nat) :
    ∃ head', (p.leftAt head).enter t x = ((p.enter t x).1.leftAt head', (p.enter t x).2) := by
  by_cases past : x.count ≤ p.ordinal
  · rw [enter, enter, leftAt_ordinal, if_pos past, if_pos past]
    exact ⟨head, rfl⟩
  · refine ⟨(p.enter t x).1.head, ?_⟩
    show _ = p.enter t x
    rw [enter, enter, leftAt_ordinal, if_neg past, if_neg past]
    rfl

/-- A walk goes the same way wherever it finds the head, if it does so when a block is over. -/
theorem walk_leftAt_of {t : Tape} {x : Index} {budget : Nat} {p : Player} {head : Nat}
    (ends : p.playing = true → p.phase.next p.settings t.image = .ok none →
      ∃ head', walk t x budget (p.leftAt head) =
        ((walk t x budget p).1.leftAt head', (walk t x budget p).2)) :
    ∃ head', walk t x budget (p.leftAt head) =
      ((walk t x budget p).1.leftAt head', (walk t x budget p).2) := by
  by_cases playing : p.playing
  · cases first : p.phase.next p.settings t.image with
    | error fault =>
      rw [walk.eq_def, walk.eq_def t x budget p]
      simp only [leftAt_playing, leftAt_phase, leftAt_settings, playing, first, ↓reduceIte]
      exact ⟨_, rfl⟩
    | ok found =>
      cases found with
      | none => exact ends playing first
      | some found =>
        rw [walk.eq_def, walk.eq_def t x budget p]
        simp only [leftAt_playing, leftAt_phase, leftAt_settings, playing, first, ↓reduceIte]
        exact ⟨_, rfl⟩
  · rw [walk.eq_def, walk.eq_def t x budget p]
    simp only [leftAt_playing, playing, Bool.false_eq_true, ↓reduceIte]
    exact ⟨_, rfl⟩

theorem walk_leftAt (t : Tape) (x : Index) (budget : Nat) (p : Player) (head : Nat) :
    ∃ head', walk t x budget (p.leftAt head) =
      ((walk t x budget p).1.leftAt head', (walk t x budget p).2) := by
  induction budget generalizing p head with
  | zero =>
    refine walk_leftAt_of fun playing ended => ?_
    simp only [walk, leftAt_playing, leftAt_phase, leftAt_settings, leave_leftAt, playing, ended,
      ↓reduceIte]
    exact ⟨head, rfl⟩
  | succ budget ih =>
    refine walk_leftAt_of fun playing ended => ?_
    obtain ⟨head', entered⟩ := enter_leftAt t x p.leave head
    simp only [walk, leftAt_playing, leftAt_phase, leftAt_settings, leave_leftAt, playing, ended,
      ↓reduceIte, entered]
    cases p.leave.enter t x with
    | mk q result =>
      cases result with
      | error fault => exact ⟨head', rfl⟩
      | ok => exact ih q head'

theorem spend_leftAt (t : Tape) (x : Index) (fuel : Nat) (p : Player) (head left : Nat) :
    ∃ head', spend t x fuel (p.leftAt head) left =
      (spend t x fuel p left).map fun r => (r.1.leftAt head', r.2) := by
  induction fuel generalizing p head left with
  | zero => exact ⟨head, rfl⟩
  | succ fuel ih =>
    cases playing : p.playing with
    | false =>
      have stopped : (p.leftAt head).playing = false := playing
      rw [spend_stopped playing, spend_stopped stopped]
      exact ⟨head, rfl⟩
    | true =>
      have playing' : (p.leftAt head).playing = true := playing
      rcases Nat.lt_or_ge left p.remaining with early | late
      · have early' : left < (p.leftAt head).remaining := early
        rw [spend_early playing early, spend_early playing' early']
        exact ⟨head, rfl⟩
      · have late' : (p.leftAt head).remaining ≤ left := late
        let ended : Player := { p with remaining := 0 }
        obtain ⟨head', walked⟩ := walk_leftAt t x walkLimit ended head
        have started : startInterval { p.leftAt head with remaining := 0 } t x =
          ((ended.startInterval t x).1.leftAt head', (ended.startInterval t x).2) := walked
        rw [spend_late playing late, spend_late playing' late', started]
        cases ended.startInterval t x with
        | mk q result =>
          cases result with
          | error fault => exact ⟨head', rfl⟩
          | ok => exact ih q head' _

/-- Nothing that the player does depends on where it finds the head. -/
theorem advance_leftAt (t : Tape) (x : Index) (p : Player) (head fuel ticks : Nat) :
    ∃ head', (p.leftAt head).advance t x fuel ticks =
      (p.advance t x fuel ticks).map fun r => (r.1.leftAt head', r.2) := by
  obtain ⟨head', spent⟩ := spend_leftAt t x fuel p head ticks
  refine ⟨head', ?_⟩
  rw [advance, advance, spent, Option.map_map, Option.map_map]
  rfl

end Player

/-! ### Tapes that play alike -/

namespace Inserted

def table (i : Inserted) (s : Store) : Except Fault Index :=
  match i.index with
  | some x => .ok x
  | none => Index.ofTape (i.tape s)

theorem indexed_eq (i : Inserted) (s : Store) :
    i.indexed s = (i.table s).map fun x => ({ i with index := some x }, x) := by
  obtain ⟨path, format, object, length, version, locked, index, player, selection⟩ := i
  cases index with
  | some x => rfl
  | none =>
    simp only [indexed, table]
    cases Index.ofTape _ <;> rfl

/-- A tape is played like another: the same blocks with the same index, and by players that differ
only in where they find the head. -/
structure Alike (s : Store) (i j : Inserted) : Prop where
  tape : j.tape s = i.tape s
  table : j.table s = i.table s
  player : ∃ head, j.player = i.player.leftAt head

theorem Alike.refl (s : Store) (i : Inserted) : Alike s i i := ⟨rfl, rfl, i.player.head, rfl⟩

theorem Alike.trans {s : Store} {i j k : Inserted} (h : Alike s i j) (h' : Alike s j k) :
    Alike s i k := by
  obtain ⟨head, player⟩ := h.player
  obtain ⟨head', player'⟩ := h'.player
  refine ⟨h'.tape.trans h.tape, h'.table.trans h.table, head', ?_⟩
  rw [player', player]
  rfl

/-- Making the index and marking blocks have nothing to do with how a tape is played. -/
theorem alike_indexed {s : Store} {i : Inserted} {x : Index} (table : i.table s = .ok x)
    (selection : Selection) : Alike s i { i with index := some x, selection } :=
  ⟨rfl, table.symm, i.player.head, rfl⟩

end Inserted

namespace Deck

/-- The tapes in two decks are played alike, or there are none. -/
inductive Alike (s : Store) (d d' : Deck) : Prop
  | empty (nothing : d.tape = none) (nothing' : d'.tape = none)
  | loaded {i j : Inserted} (inserted : d.tape = some i) (inserted' : d'.tape = some j)
      (alike : i.Alike s j)

variable {s : Store} {d d' d'' : Deck}

theorem alike_of_tape (s : Store) (same : d'.tape = d.tape) : d.Alike s d' := by
  cases inserted : d.tape with
  | none => exact .empty inserted (same.trans inserted)
  | some i => exact .loaded inserted (same.trans inserted) (.refl s i)

theorem Alike.trans (h : d.Alike s d') (h' : d'.Alike s d'') : d.Alike s d'' := by
  cases h with
  | empty none none' =>
    cases h' with
    | empty _ none'' => exact .empty none none''
    | loaded inserted' => cases none'.symm.trans inserted'
  | loaded inserted inserted' alike =>
    cases h' with
    | empty none' => cases none'.symm.trans inserted'
    | loaded again inserted'' alike' =>
      obtain rfl := Option.some.inj (inserted'.symm.trans again)
      exact .loaded inserted inserted'' (alike.trans alike')

theorem alike_leftAt (s : Store) (d : Deck) (head : Nat) :
    d.Alike s (d.onPlayer (·.leftAt head)) := by
  cases inserted : d.tape with
  | none => exact .empty inserted (by rw [onPlayer, inserted]; rfl)
  | some i =>
    refine .loaded inserted (j := { i with player := i.player.leftAt head }) ?_
      ⟨rfl, rfl, head, rfl⟩
    rw [onPlayer, inserted]
    rfl

theorem alike_onTape {α : Type} (s : Store) (d : Deck)
    {f : Inserted → Index → Inserted × Except Fault α}
    (marks : ∀ i x, ∃ selection, (f i x).1 = { i with selection }) :
    d.Alike s (d.onTape s f).1 := by
  cases inserted : d.tape with
  | none =>
    simp only [onTape, inserted]
    exact alike_of_tape s rfl
  | some i =>
    cases table : i.table s with
    | error fault =>
      simp only [onTape, inserted, Inserted.indexed_eq, table, Except.map]
      exact alike_of_tape s rfl
    | ok x =>
      obtain ⟨selection, marked⟩ := marks { i with index := some x } x
      simp only [onTape, inserted, Inserted.indexed_eq, table, Except.map, marked]
      exact .loaded inserted rfl (Inserted.alike_indexed table selection)

/-! ### Looking at a tape -/

/-- What can be asked of a deck while its tape is played or stopped. -/
inductive Look
  | countBlocks
  | summary (ordinal : Nat)
  | listing
  | toggle (ordinal : Nat)
  | progress
  /-- The recorder hears the machine. -/
  | send (level : Bool) (tick : Nat)
  /-- The recorder hears nothing. -/
  | quiet (tick : Nat)

def Look.run (s : Store) (d : Deck) : Look → Deck
  | countBlocks => (d.countBlocks s).1
  | summary ordinal => (d.summary s ordinal).1
  | listing => (d.listing s).1
  | toggle ordinal => (d.toggle s ordinal).1
  | progress => d
  | send level tick => d.send level tick
  | quiet tick => d.quiet tick

theorem Look.alike (s : Store) (d : Deck) (look : Look) : d.Alike s (look.run s d) := by
  cases look with
  | countBlocks | summary | listing => exact alike_onTape s d fun i _ => ⟨i.selection, rfl⟩
  | toggle ordinal =>
    refine alike_onTape s d fun i x => ?_
    split
    · exact ⟨i.selection, rfl⟩
    · exact ⟨_, rfl⟩
  | progress => exact alike_of_tape s rfl
  | send level tick =>
    rw [run, Deck.send]
    split
    · exact alike_of_tape s rfl
    · exact alike_of_tape s rfl
  | quiet tick => exact alike_of_tape s rfl

/-! ### Playing a tape -/

/-- What can be seen of a deck when ticks have passed, and the ticks it played. -/
structure Sight where
  played : Except Fault Nat
  level : Bool
  remaining : Nat
  cursor : Nat
  isPlaying : Bool
  hasRunOut : Bool

def sight (d : Deck) (played : Except Fault Nat) : Sight :=
  ⟨played, d.level, d.remaining, d.cursor, d.isPlaying, d.hasRunOut⟩

theorem Alike.sight_eq (h : d.Alike s d') (played : Except Fault Nat) :
    d'.sight played = d.sight played := by
  simp only [sight, level, remaining, cursor, isPlaying, hasRunOut]
  cases h with
  | empty none none' => rw [none, none']
  | loaded inserted inserted' alike =>
    obtain ⟨head, player⟩ := alike.player
    simp only [inserted, inserted', Option.map_some, Option.getD_some, Option.any_some, player]
    rfl

theorem Alike.advance (h : d.Alike s d') (edges ticks : Nat) :
    d.advance s edges ticks = none ∧ d'.advance s edges ticks = none ∨
      ∃ q q' played, d.advance s edges ticks = some (q, played) ∧
        d'.advance s edges ticks = some (q', played) ∧ q.Alike s q' := by
  have alike := h
  cases h with
  | empty none none' =>
    simp only [Deck.advance, none, none']
    exact .inr ⟨d, d', _, rfl, rfl, alike⟩
  | @loaded i j inserted inserted' like =>
    obtain ⟨head, player⟩ := like.player
    have playing : j.player.playing = i.player.playing := by rw [player]; rfl
    simp only [Deck.advance, inserted, inserted', Inserted.indexed_eq, like.table, playing]
    split
    · cases table : i.table s with
      | error fault => exact .inr ⟨d, d', _, rfl, rfl, alike⟩
      | ok x =>
        obtain ⟨head', advanced⟩ := Player.advance_leftAt (i.tape s) x i.player head edges ticks
        have tape (player : Player) :
            Inserted.tape { j with index := some x, player } s = i.tape s := like.tape
        have tape' : Inserted.tape { i with index := some x } s = i.tape s := rfl
        simp only [Except.map, player, tape, tape', advanced]
        cases i.player.advance (i.tape s) x edges ticks with
        | none => exact .inl ⟨rfl, rfl⟩
        | some r => exact .inr ⟨_, _, _, rfl, rfl, .loaded rfl rfl ⟨like.tape, rfl, head', rfl⟩⟩
    · exact .inr ⟨d, d', _, rfl, rfl, alike⟩

/-- What is done with a deck: ticks pass, or it is looked at, which leaves the head of the file
anywhere. -/
inductive Touch
  | advance (edges ticks : Nat)
  | look (look : Look) (head : Nat)

def Touch.isAdvance : Touch → Bool
  | advance .. => true
  | look .. => false

/-- What is seen of a deck each time ticks have passed; none if there are more edges than were
allowed. -/
def watch (s : Store) : Deck → List Touch → Option (List Sight)
  | _, [] => some []
  | d, .advance edges ticks :: rest => do
    let (d, played) ← d.advance s edges ticks
    return d.sight played :: (← watch s d rest)
  | d, .look look head :: rest => watch s ((look.run s d).onPlayer (·.leftAt head)) rest

theorem Alike.watch_eq (h : d.Alike s d') (touches : List Touch) :
    watch s d' touches = watch s d (touches.filter Touch.isAdvance) := by
  induction touches generalizing d d' with
  | nil => rfl
  | cons touch rest ih =>
    cases touch with
    | advance edges ticks =>
      rw [List.filter_cons_of_pos rfl, watch, watch]
      obtain ⟨stuck, stuck'⟩ | ⟨q, q', played, advanced, advanced', alike⟩ := h.advance edges ticks
      · rw [stuck, stuck']
        rfl
      · rw [advanced, advanced']
        show (do return q'.sight played :: (← watch s q' rest)) = _
        rw [alike.sight_eq, ih alike]
        rfl
    | look look head =>
      rw [List.filter_cons_of_neg Bool.false_ne_true, watch]
      exact ih ((h.trans (look.alike s d')).trans (alike_leftAt s _ head))

/-- Browsing does not disturb playback: what is seen of a deck while ticks pass is the same if it
is never looked at in between, wherever in a block it is played or stopped. -/
theorem watch_filter (s : Store) (d : Deck) (touches : List Touch) :
    watch s d touches = watch s d (touches.filter Touch.isAdvance) :=
  (alike_of_tape s rfl).watch_eq touches

end Deck

end Cassette
