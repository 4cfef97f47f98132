import Cassette.Proofs.Cursor
import Cassette.Proofs.Slicing
import Cassette.Proofs.Waveform

/-! What is heard of a tape. `Player.Plays` lists the intervals that a player starts until
the tape halts. On a tape of plain blocks nothing leads elsewhere, so a player has ahead of
it the rest of the block under way and then all blocks that follow (`Player.ahead`); a walk
takes the first interval off this list (`walk_plain`), and the whole list is played
(`plays_ahead`). Main statement: `play_plays`, the tape from its beginning. -/

namespace Cassette

theorem Indexed.isPlain_of_tap {t : Tape} {x : Index} (h : Indexed t x) (tap : t.format = .tap) :
    ∀ b ∈ t.scan.blocks, b.isPlain := by
  intro b member
  obtain ⟨o, read⟩ := h.read_of_mem (Array.mem_toList_iff.2 member)
  obtain ⟨c, -, rfl⟩ := (Tape.blockAt?_tap tap).1 read
  rfl

namespace Player

open Signal

variable {t : Tape} {x : Index} {p q : Player}

/-- The levels and lengths of the intervals that are started one after the other, each when
the one before it is over, and the player in which the tape halts. -/
inductive Plays (t : Tape) (x : Index) : Player → List (Bool × Nat) → Player → Prop
  | halt {p q : Player} (walked : { p with remaining := 0 }.startInterval t x = (q, .ok ()))
      (halted : q.playing = false) : Plays t x p [] q
  | edge {p q r : Player} {rest : List (Bool × Nat)}
      (walked : { p with remaining := 0 }.startInterval t x = (q, .ok ()))
      (playing : q.playing = true) (on : Plays t x q rest r) :
      Plays t x p ((q.level, q.remaining) :: rest) r

theorem Plays.unique {l l' : List (Bool × Nat)} {r r' : Player} (h : p.Plays t x l r)
    (h' : p.Plays t x l' r') : l = l' ∧ r = r' := by
  induction h generalizing l' with
  | halt walked halted =>
    cases h' with
    | halt walked' =>
      obtain ⟨rfl, -⟩ := Prod.mk.inj (walked.symm.trans walked')
      exact ⟨rfl, rfl⟩
    | edge walked' playing =>
      obtain ⟨rfl, -⟩ := Prod.mk.inj (walked.symm.trans walked')
      simp [halted] at playing
  | edge walked playing _ ih =>
    cases h' with
    | halt walked' halted =>
      obtain ⟨rfl, -⟩ := Prod.mk.inj (walked.symm.trans walked')
      simp [playing] at halted
    | edge walked' _ on =>
      obtain ⟨rfl, -⟩ := Prod.mk.inj (walked.symm.trans walked')
      obtain ⟨rfl, rfl⟩ := ih on
      exact ⟨rfl, rfl⟩

def lasting : List (Bool × Nat) → Nat
  | [] => 0
  | (_, ticks) :: rest => ticks + lasting rest

/-- Time that lasts for the interval under way and all that are started is just so long. -/
theorem Plays.spend {l : List (Bool × Nat)} (h : p.Plays t x l q) (playing : p.playing = true)
    (left : Nat) :
    Player.spend t x (l.length + 2) p (p.remaining + lasting l + left) = some (q, .ok left) := by
  induction h with
  | halt walked halted =>
    rw [spend_late playing (by omega), walked]
    simp only [spend_stopped halted, lasting]
    congr 3
    omega
  | @edge p q r rest walked on _ ih =>
    rw [spend_late playing (by omega), walked]
    simp only [List.length_cons, lasting]
    rw [show p.remaining + (q.remaining + lasting rest) + left - p.remaining =
      q.remaining + lasting rest + left by omega]
    exact ih on

/-! ### What is ahead -/

def upcoming (p : Player) : Nat :=
  match p.phase with
  | .idle => p.ordinal
  | _ => p.ordinal + 1

theorem upcoming_of_idle (idle : p.phase = .idle) : p.upcoming = p.ordinal := by
  simp only [upcoming, idle]

theorem upcoming_of_playing (playing : p.phase ≠ .idle) : p.upcoming = p.ordinal + 1 := by
  simp only [upcoming]

theorem leave_ordinal : p.leave.ordinal = p.upcoming := by
  by_cases idle : p.phase = .idle
  · rw [leave_of_idle idle, upcoming_of_idle idle]
  · rw [leave_of_playing idle, upcoming_of_playing idle]

def beatsFrom (t : Tape) (s : Settings) (ordinal : Nat) : List Beat :=
  (t.scan.blocks.toList.drop ordinal).flatMap (Block.beats s t.image)

/-- What is heard next if the player goes straight on to the end of the tape. -/
def ahead (t : Tape) (p : Player) : List (Bool × Nat) :=
  heard p.level ((p.phase.intervals p.settings t.image).map .start ++
    beatsFrom t p.settings p.upcoming)

theorem beatsFrom_of_found {s : Settings} {ordinal : Nat} {b : Block}
    (found : t.scan.blocks[ordinal]? = some b) :
    beatsFrom t s ordinal = b.beats s t.image ++ beatsFrom t s (ordinal + 1) := by
  obtain ⟨inside, rfl⟩ := Array.getElem?_eq_some_iff.1 found
  rw [beatsFrom, List.drop_eq_getElem_cons (by simpa using inside)]
  simp only [List.flatMap_cons, Array.getElem_toList]
  rfl

theorem beatsFrom_of_le {s : Settings} {ordinal : Nat} (ended : t.scan.blocks.size ≤ ordinal) :
    beatsFrom t s ordinal = [] := by
  rw [beatsFrom, List.drop_eq_nil_of_le (by simpa using ended)]
  rfl

/-! ### Walks -/

/-- The rest of the tape is still ahead, and what of it is under way can be played. -/
structure Cued (t : Tape) (p q : Player) (ahead : List (Bool × Nat)) : Prop where
  playing : q.playing = true
  ready : q.phase.Ready t.image
  settings : q.settings = p.settings
  start : q.start = p.start
  ahead : q.ahead t = ahead

/-- The tape has run out: everything is as in a new player but the level and the head. -/
def RunsOut (p q : Player) : Prop :=
  q = { new p.settings p.start with level := q.level, ranOut := true, head := q.head }

theorem leave_cued (playing : p.playing = true)
    (ended : p.phase.intervals p.settings t.image = []) : Cued t p p.leave (p.ahead t) := by
  have idle := p.leave_idle
  have kept : p.leave.settings = p.settings ∧ p.leave.start = p.start ∧ p.leave.level = p.level ∧
      p.leave.playing = p.playing := by
    simp only [leave]
    split <;> exact ⟨rfl, rfl, rfl, rfl⟩
  obtain ⟨settings, start, level, still⟩ := kept
  refine ⟨still.trans playing, by rw [idle]; trivial, settings, start, ?_⟩
  rw [ahead, ahead, upcoming_of_idle idle, leave_ordinal, idle, ended, settings, level]
  rfl

theorem begin_cued {i : Interval} {rest : Phase} (playing : p.playing = true)
    (first : p.phase.intervals p.settings t.image = i :: rest.intervals p.settings t.image)
    (ready : rest.Ready t.image) (unfinished : rest ≠ .idle) :
    Cued t p (p.begin i rest) ((p.begin i rest).ahead t) ∧
      p.ahead t =
        ((p.begin i rest).level, (p.begin i rest).remaining) :: (p.begin i rest).ahead t := by
  have under : p.phase ≠ .idle := by
    intro idle
    rw [idle] at first
    exact nomatch first
  refine ⟨⟨playing, ready, rfl, rfl, rfl⟩, ?_⟩
  have same : (p.begin i rest).upcoming = p.upcoming := by
    rw [upcoming_of_playing under]
    exact upcoming_of_playing (p := p.begin i rest) unfinished
  rw [ahead, ahead, same, first]
  rfl

theorem enter_cued (h : Indexed t x) (plain : ∀ b ∈ t.scan.blocks, b.isPlain)
    (standing : p.Standing t x) (idle : p.phase = .idle) (playing : p.playing = true)
    (inside : p.ordinal < x.count) :
    ∃ q, p.enter t x = (q, .ok ()) ∧ Cued t p q (p.ahead t) ∧ q.upcoming = p.ordinal + 1 := by
  obtain ⟨b, found, read, next⟩ := h.read inside
  rw [← standing.offset] at read
  have member : b ∈ t.scan.blocks := Array.mem_of_getElem? found
  have beats : p.ahead t = heard p.level
      (b.beats p.settings t.image ++ beatsFrom t p.settings (p.ordinal + 1)) := by
    rw [ahead, upcoming_of_idle idle, beatsFrom_of_found found, idle]
    rfl
  simp only [enter, if_neg (Nat.not_le.2 inside), read]
  rcases Block.enters (s := p.settings) h.whole read (plain b member) with
    ⟨phase, entered, ready, under, same⟩ | ⟨level, entered, same⟩ | ⟨entered, silent, on⟩
  · rw [same] at beats
    simp only [entered]
    refine ⟨_, rfl, ⟨playing, ready, rfl, rfl, ?_⟩, upcoming_of_playing under⟩
    rw [beats, ahead, upcoming_of_playing (by exact under)]
  · rw [same] at beats
    simp only [entered]
    exact ⟨_, rfl, ⟨playing, trivial, rfl, rfl, beats.symm⟩, rfl⟩
  · rw [silent] at beats
    simp only [entered, on, follow]
    exact ⟨_, rfl, ⟨playing, trivial, rfl, rfl, beats.symm⟩, rfl⟩

/-- What a walk on a tape of plain blocks comes to: the first interval ahead has started, or
there was none and the tape has run out. -/
def Walks (t : Tape) (p q : Player) : Prop :=
  (Cued t p q (q.ahead t) ∧ p.ahead t = (q.level, q.remaining) :: q.ahead t) ∨
    p.ahead t = [] ∧ q.playing = false ∧ RunsOut p q

/-- A walk that begins behind a part with the same ahead comes to the same. -/
theorem Cued.walks {r : Player} (cued : Cued t p q (p.ahead t)) (walks : Walks t q r) :
    Walks t p r := by
  obtain ⟨-, -, settings, start, ahead⟩ := cued
  rcases walks with ⟨on, first⟩ | ⟨none, halted, out⟩
  · exact .inl ⟨⟨on.playing, on.ready, on.settings.trans settings, on.start.trans start, rfl⟩,
      ahead ▸ first⟩
  · refine .inr ⟨ahead ▸ none, halted, ?_⟩
    rw [RunsOut, settings, start] at out
    exact out

/-- A walk takes the first interval off those ahead, or comes to the end of the tape. One more
block may be entered than there are still to come. -/
theorem walk_plain (h : Indexed t x) (plain : ∀ b ∈ t.scan.blocks, b.isPlain) {budget : Nat}
    (standing : p.Standing t x) (playing : p.playing = true) (ready : p.phase.Ready t.image)
    (enough : x.count < p.upcoming + budget) :
    ∃ q, walk t x budget p = (q, .ok ()) ∧ Walks t p q := by
  induction budget generalizing p with
  | zero =>
    -- The end of the tape, too, is entered, so no walk comes this far.
    have inside := (standing.leave h).ordinal_le
    rw [leave_ordinal] at inside
    omega
  | succ budget ih =>
    rw [walk, if_pos playing]
    rcases Phase.next_cases (s := p.settings) h.whole ready with
      ⟨ended, next⟩ | ⟨i, rest, first, next, going, unfinished⟩
    · have left := leave_cued playing ended
      have idle := p.leave_idle
      simp only [next]
      rcases Nat.lt_or_ge p.leave.ordinal x.count with inside | behind
      · obtain ⟨q, entered, cued, upcoming⟩ :=
          enter_cued h plain (standing.leave h) idle left.playing inside
        have sound := enter_sound h (standing.leave h) idle
        rw [entered] at sound
        have fewer : x.count < q.upcoming + budget := by
          rw [upcoming, leave_ordinal]
          omega
        obtain ⟨r, walked, walks⟩ := ih sound.1 cued.playing cued.ready fewer
        simp only [entered]
        exact ⟨r, walked, left.walks (cued.walks walks)⟩
      · have out : p.leave.enter t x = (p.leave.runOut, .ok ()) := by rw [enter, if_pos behind]
        have none : p.leave.ahead t = [] := by
          rw [ahead, upcoming_of_idle idle, idle, beatsFrom_of_le (h.count_eq ▸ behind)]
          rfl
        have ends : RunsOut p.leave p.leave.runOut := rfl
        simp only [out]
        refine ⟨p.leave.runOut, ?_, left.walks (.inr ⟨none, rfl, ends⟩)⟩
        unfold walk
        exact if_neg Bool.false_ne_true
    · simp only [next]
      exact ⟨_, rfl, .inl (begin_cued playing first going unfinished)⟩

/-- A player on a tape of plain blocks plays what is ahead, and then the tape runs out. -/
theorem plays_ahead (h : Indexed t x) (plain : ∀ b ∈ t.scan.blocks, b.isPlain)
    (few : x.count < walkLimit) (standing : p.Standing t x) (playing : p.playing = true)
    (ready : p.phase.Ready t.image) :
    ∃ q, p.Plays t x (p.ahead t) q ∧ q.playing = false ∧ RunsOut p q := by
  generalize list : p.ahead t = l
  induction l generalizing p with
  | nil =>
    have still := standing.paused 0 p.playing
    have enough : x.count < p.upcoming + walkLimit := by omega
    obtain ⟨q, walked, walks⟩ := walk_plain h plain still playing ready enough
    rcases walks with ⟨-, first⟩ | ⟨-, halted, out⟩
    · exact nomatch list.symm.trans first
    · exact ⟨q, .halt walked halted, halted, out⟩
  | cons head rest ih =>
    have still := standing.paused 0 p.playing
    have enough : x.count < p.upcoming + walkLimit := by omega
    obtain ⟨q, walked, walks⟩ := walk_plain h plain still playing ready enough
    rcases walks with ⟨cued, first⟩ | ⟨none, -, -⟩
    · obtain ⟨rfl, rest⟩ := List.cons.inj (list.symm.trans first)
      have sound := walk_sound h walkLimit still
      rw [walked] at sound
      obtain ⟨r, plays, halted, out⟩ := ih sound.1 cued.playing cued.ready rest.symm
      refine ⟨r, .edge walked cued.playing plays, halted, ?_⟩
      rw [RunsOut, cued.settings, cued.start] at out
      exact out
    · exact nomatch list.symm.trans none

/-- A new player on a tape of plain blocks, few enough for one walk, plays just what the blocks
do to the line, one behind the other. Then it has halted in front of the first block, as a new
player but for the level, the head, and the sign that the tape has run out. -/
theorem play_plays (h : Indexed t x) (plain : ∀ b ∈ t.scan.blocks, b.isPlain)
    (few : x.count < 0x100000) (s : Settings) :
    ∃ q, q = { new s t.start with level := q.level, ranOut := true, head := q.head } ∧
      ∀ l r, (new s t.start).play.Plays t x l r ↔
        l = heard false (t.scan.blocks.toList.flatMap (Block.beats s t.image)) ∧ r = q := by
  have standing : (new s t.start).play.Standing t x := (Reachable.play .new).standing h (s := s)
  obtain ⟨q, plays, -, out⟩ := plays_ahead h plain few standing rfl trivial
  refine ⟨q, out, fun l r => ⟨fun other => other.unique plays, ?_⟩⟩
  rintro ⟨rfl, rfl⟩
  exact plays

/-- The line is set high; two pilot pulses, two sync pulses, a one and a zero follow, and then
a millisecond of silence. Then come a byte of zeros behind the pilot of a header, a byte with the
highest bit set behind the pilot of data, and a block that is nothing but its pause. -/
theorem play_plays_turbo :
    let t : Tape := ⟨.tzx, .ofBytes (Tzx.magic ++ #[1, 20, 0x2B, 1, 0, 0, 0, 1, 0x11, 5, 0, 6, 0, 7,
      0, 1, 0, 2, 0, 2, 0, 2, 1, 0, 1, 0, 0, 0x80, 0x10, 0, 0, 1, 0, 0x00, 0x10, 1, 0, 1, 0, 0x80,
      0x10, 2, 0, 0, 0]), some (1, 20)⟩
    let x : Index := ⟨#[10], 5⟩
    let s := { Settings.standard with
      timings := { Timings.rom with headerPilot := 2, dataPilot := 1 } }
    Indexed t x ∧ (∀ b ∈ t.scan.blocks, b.isPlain) ∧ ∃ q, q.ranOut = true ∧
      (new s 10).play.Plays t x ([(false, 5), (true, 5), (false, 6), (true, 7), (false, 2),
        (true, 2), (false, 1), (true, 1), (false, 3500)] ++
        [(true, 2168), (false, 2168), (true, 667), (false, 735)] ++
        (List.replicate 8 [(true, 855), (false, 855)]).flatten ++
        [(true, 2168), (false, 667), (true, 735), (false, 1710), (true, 1710)] ++
        (List.replicate 7 [(false, 855), (true, 855)]).flatten ++
        [(false, 3500), (false, 7000)]) q := by
  intro t x s
  have indexed : Indexed t x := ⟨rfl, by decide +kernel⟩
  have plain : ∀ b ∈ t.scan.blocks, b.isPlain := by decide +kernel
  obtain ⟨q, out, plays⟩ := play_plays indexed plain (by decide) s
  refine ⟨indexed, plain, q, by rw [out], (plays _ q).2 ⟨?_, rfl⟩⟩
  decide +kernel

end Player

end Cassette
