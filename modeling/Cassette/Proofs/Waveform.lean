import Cassette.Player
import Cassette.Proofs.Extent
import Cassette.Proofs.Payload

/-! The signal of blocks, written down as lists. `Block.beats` says for each kind of block
which intervals it starts, from its fields and its payload alone; `heard` turns a list of
beats into levels and lengths. The phases of a block give just these intervals, one at a
time (`Phase.next_cases`), beginning with the phase in which a block is entered
(`Block.enters`). -/

namespace Cassette

open Tzx (Span)

namespace Signal

/-- What a block does to the line. -/
inductive Beat
  | start (interval : Interval)
  /-- Sets the level in no time. -/
  | set (level : Bool)
  deriving DecidableEq

/-- The levels and lengths of intervals that start one after the other from a level on. -/
def heard : (level : Bool) → List Beat → List (Bool × Nat)
  | _, [] => []
  | level, .start i :: rest => (i.swing.apply level, i.ticks) :: heard (i.swing.apply level) rest
  | _, .set level :: rest => heard level rest

/-! ### The intervals of blocks -/

/-- One low interval, if it has any ticks. -/
def silence (ticks : Nat) : List Interval := if ticks = 0 then [] else [⟨.set false, ticks⟩]

/-- A pause of so many milliseconds, rounded down to ticks. -/
def pauseOf (s : Settings) (ms : UInt16) : List Interval :=
  silence (ms.toNat * s.ticksPerSecond / 1000)

def lastBitsOf (usedBits : UInt8) : Nat := if usedBits = 0 ∨ 8 < usedBits then 8 else usedBits.toNat

def payloadBits (image : Image) (usedBits : UInt8) (data : Span) : List Bool :=
  bitsFrom image data (lastBitsOf usedBits) 0

def leader (width : UInt16) (count : Nat) (sync1 sync2 : UInt16) : List Interval :=
  List.replicate count (pulse width.toNat) ++ [pulse sync1.toNat, pulse sync2.toNat]

def bitPulses (image : Image) (zeroPulse onePulse : UInt16) (usedBits : UInt8) (data : Span) :
    List Interval :=
  (DataCursor.pulsesOf zeroPulse onePulse (payloadBits image usedBits data)).map pulse

/-- A payload with the pulses of the ROM and the pause behind it. The highest bit of its first byte
says which pilot leads up to it. -/
def romIntervals (s : Settings) (image : Image) (pauseMs : UInt16) (data : Span) : List Interval :=
  let t := s.timings
  let pilotLength := if image.byte data.offset < 0x80 then t.headerPilot else t.dataPilot
  leader t.pilotPulse pilotLength.toNat t.sync1 t.sync2 ++
    bitPulses image t.zeroPulse t.onePulse 8 data ++ pauseOf s pauseMs

/-- The intervals that a block of a kind starts. -/
def intervalsOf (s : Settings) (image : Image) : Tzx.Kind Span String → List Interval
  | .standardSpeed pauseMs data =>
    if data.length = 0 then pauseOf s pauseMs else romIntervals s image pauseMs data
  | .turboSpeed pilotPulse sync1 sync2 zeroPulse onePulse pilotLength usedBits pauseMs data =>
    leader pilotPulse pilotLength.toNat sync1 sync2 ++
      bitPulses image zeroPulse onePulse usedBits data ++ pauseOf s pauseMs
  | .pureTone width count => List.replicate count.toNat (pulse width.toNat)
  | .pulseSequence widths => widths.map fun width => pulse width.toNat
  | .pureData zeroPulse onePulse usedBits pauseMs data =>
    bitPulses image zeroPulse onePulse usedBits data ++ pauseOf s pauseMs
  | .directRecording ticksPerSample pauseMs usedBits data =>
    (payloadBits image usedBits data).map (fun level => ⟨.set level, ticksPerSample.toNat⟩) ++
      pauseOf s pauseMs
  | .pause ms => pauseOf s ms
  | _ => []

end Signal

open Signal

namespace Block

/-- What the block does to the line. A TAP block without payload does nothing. -/
def beats (s : Settings) (image : Image) : Block → List Beat
  | .tap b =>
    if b.length = 0 then []
    else (romIntervals s image s.blockPauseMs ⟨b.payloadStart, b.length.toNat⟩).map .start
  | .tzx b =>
    match b.kind with
    | .signalLevel level => [.set level]
    | kind => (intervalsOf s image kind).map .start

/-- Blocks that neither lead elsewhere nor stop the tape, and are not packed recordings. -/
def isPlain : Block → Bool
  | .tap _ => true
  | .tzx b =>
    match b.kind with
    | .pause ms => ms ≠ 0
    | .csw .. | .jump _ | .loopStart _ | .loopEnd | .callSequence _ | .callReturn
    | .stopIf48K => false
    | _ => true

end Block

/-! ### Phases -/

namespace Signal

variable {image : Image} {s : Settings}

theorem payloadBits_eq {data : Span} (whole : image.Whole) (inside : data.stop ≤ image.length) :
    payloadBits image 8 data =
      (image.slice data.offset data.length).toList.flatMap Bits.bitsOf := by
  have eight (i : Nat) : usedOf data (lastBitsOf 8) i = 8 := by
    simp only [usedOf, lastBitsOf]
    split <;> rfl
  have all (b : UInt8) : (Bits.bitsOf b).take 8 = Bits.bitsOf b := rfl
  simp only [payloadBits, bitsFrom, eight, all, Nat.sub_zero]
  rw [Image.toList_slice whole inside, List.flatMap_map]

def DataCursor.intervals (s : Settings) (image : Image) (c : DataCursor) : List Interval :=
  (c.pulses image).map pulse ++ pauseOf s c.pauseMs

namespace Phase

variable {phase : Phase}

def intervals (s : Settings) (image : Image) : Phase → List Interval
  | pilot width left s1 s2 c => leader width left s1 s2 ++ c.intervals s image
  | sync2 width c => pulse width.toNat :: c.intervals s image
  | data c => c.intervals s image
  | tone width left => List.replicate left (pulse width.toNat)
  | pulses widths => widths.map fun width => pulse width.toNat
  | samples bits ticksPerSample pauseMs =>
    (bits.bits image).map (fun level => ⟨.set level, ticksPerSample.toNat⟩) ++
      pauseOf s pauseMs
  | pause ticks => silence ticks
  | idle | done | runs _ => []

/-- The phase is not one of packed samples, and plays from inside the image. -/
def Ready (image : Image) : Phase → Prop
  | pilot _ _ _ _ c | sync2 _ c | data c => c.bits.Inside image
  | samples bits _ _ => bits.Inside image
  | runs _ => False
  | idle | tone .. | pulses _ | pause _ | done => True

/-- The phase is over, or it gives its first interval and goes on with the others. -/
def Gives (s : Settings) (image : Image) (phase : Phase) : Prop :=
  (phase.intervals s image = [] ∧ phase.next s image = .ok none) ∨
    ∃ i rest, phase.intervals s image = i :: rest.intervals s image ∧
      phase.next s image = .ok (some (i, rest)) ∧ rest.Ready image ∧ rest ≠ .idle

theorem gives_pause (ticks : Nat) : (pause ticks).Gives s image := by
  by_cases none : ticks = 0
  · exact .inl ⟨if_pos none, congrArg Except.ok (if_pos none)⟩
  · exact .inr ⟨⟨.set false, ticks⟩, done, if_neg none, congrArg Except.ok (if_neg none), trivial,
      nofun⟩

/-- A phase gives its intervals one at a time. -/
theorem next_cases (whole : image.Whole) (ready : phase.Ready image) : phase.Gives s image := by
  cases phase with
  | idle | done => exact .inl ⟨rfl, rfl⟩
  | pilot width left s1 s2 c =>
    cases left with
    | zero => exact .inr ⟨_, sync2 s2 c, rfl, rfl, ready, nofun⟩
    | succ left => exact .inr ⟨_, pilot width left s1 s2 c, rfl, rfl, ready, nofun⟩
  | sync2 width c => exact .inr ⟨_, data c, rfl, rfl, ready, nofun⟩
  | data c =>
    rcases c.next_cases whole ready with ⟨empty, ended⟩ | ⟨w, c', ahead, some, inside, -, pause⟩
    · have rest : (data c).intervals s image = pauseOf s c.pauseMs := by
        rw [intervals, DataCursor.intervals, empty]
        rfl
      have next : (data c).next s image = (Phase.pause (s.ticksOfMs c.pauseMs)).next s image := by
        simp only [Phase.next, ended]
        rfl
      rw [Gives, rest, next]
      exact gives_pause _
    · refine .inr ⟨pulse w, data c', ?_, ?_, inside, nofun⟩
      · simp only [intervals, DataCursor.intervals, ahead, pause]
        rfl
      · simp only [Phase.next, some]
        rfl
  | tone width left =>
    cases left with
    | zero => exact .inl ⟨rfl, rfl⟩
    | succ left => exact .inr ⟨_, tone width left, rfl, rfl, trivial, nofun⟩
  | pulses widths =>
    cases widths with
    | nil => exact .inl ⟨rfl, rfl⟩
    | cons width rest => exact .inr ⟨_, pulses rest, rfl, rfl, trivial, nofun⟩
  | samples bits ticksPerSample pauseMs =>
    rcases bits.next_cases whole ready with ⟨empty, ended⟩ | ⟨level, bits', ahead, some, inside, -⟩
    · have rest : (samples bits ticksPerSample pauseMs).intervals s image =
          pauseOf s pauseMs := by
        rw [intervals, empty]
        rfl
      have next : (samples bits ticksPerSample pauseMs).next s image =
          (Phase.pause (s.ticksOfMs pauseMs)).next s image := by
        simp only [Phase.next, ended]
        rfl
      rw [Gives, rest, next]
      exact gives_pause _
    · refine .inr ⟨⟨.set level, ticksPerSample.toNat⟩, samples bits' ticksPerSample pauseMs, ?_, ?_,
        inside, nofun⟩
      · simp only [intervals, ahead]
        rfl
      · simp only [Phase.next, some]
        rfl
  | runs c => exact absurd ready id
  | pause ticks => exact gives_pause ticks

end Phase

end Signal

/-! ### Entering blocks -/

namespace Block

variable {t : Tape} {s : Settings} {o : Nat} {b : Block}

/-- What entering the block comes to: a phase with its intervals, a level, or nothing, and then
the block that follows is next. -/
def Enters (s : Settings) (image : Image) (b : Block) : Prop :=
  (∃ phase, Entry.ofBlock s image b = .ok (.signal phase) ∧ phase.Ready image ∧ phase ≠ .idle ∧
      b.beats s image = (phase.intervals s image).map .start) ∨
    (∃ level, Entry.ofBlock s image b = .ok (.setLevel level) ∧ b.beats s image = [.set level]) ∨
    Entry.ofBlock s image b = .ok .route ∧ b.beats s image = [] ∧
      ∀ (p : Player) (x : Index), p.turn x b = (.next, p.route)

theorem intervals_new (image : Image) (zeroPulse onePulse : UInt16) (usedBits : UInt8)
    (pauseMs : UInt16) (data : Span) :
    (DataCursor.new zeroPulse onePulse usedBits pauseMs data).intervals s image =
      bitPulses image zeroPulse onePulse usedBits data ++ pauseOf s pauseMs := rfl

theorem intervals_rom (image : Image) (pauseMs : UInt16) (data : Span) :
    (Phase.rom s (image.byte data.offset) pauseMs data).intervals s image =
      romIntervals s image pauseMs data := by
  simp only [Phase.rom, Phase.intervals, intervals_new, romIntervals, Timings.pilotLength,
    List.append_assoc]

/-- A TAP block is played with the pulses of the ROM. -/
theorem enters_tap {c : Tap.Block} (whole : t.image.Whole)
    (read : t.blockAt? o = .ok (some (.tap c))) : Enters s t.image (.tap c) := by
  have flag := Tape.flag_of_blockAt? whole read
  have fits := Tape.payload_fits whole read ⟨c.payloadStart, c.length.toNat⟩ rfl
  by_cases empty : c.length = 0
  · rw [if_pos empty] at flag
    refine .inl ⟨.done, by simp only [Entry.ofBlock, flag], trivial, by simp, ?_⟩
    simp only [beats, if_pos empty, Phase.intervals, List.map_nil]
  · rw [if_neg empty] at flag
    let data : Span := ⟨c.payloadStart, c.length.toNat⟩
    refine .inl ⟨.rom s (t.image.byte data.offset) s.blockPauseMs data,
      by simp only [Entry.ofBlock, flag, data], BitCursor.inside_new fits 8,
      by simp [Phase.rom], ?_⟩
    rw [beats, if_neg empty, ← intervals_rom]

/-- A plain TZX block is played as its kind asks for. -/
theorem enters_tzx {c : Tzx.Block} (whole : t.image.Whole)
    (read : t.blockAt? o = .ok (some (.tzx c))) (plain : isPlain (.tzx c)) :
    Enters s t.image (.tzx c) := by
  have fits := Tape.payload_fits whole read
  obtain ⟨offset, size, kind⟩ := c
  cases kind with
  | standardSpeed pauseMs data =>
    have inside : data.offset + data.length ≤ t.image.length := fits data rfl
    by_cases empty : data.length = 0
    · refine .inl ⟨.pause (s.ticksOfMs pauseMs), ?_, trivial, by simp, ?_⟩
      · simp only [Entry.ofBlock, Entry.ofKind, if_pos empty]
      · simp only [beats, intervalsOf, if_pos empty]
        rfl
    · have flag := Image.byteAt_eq_ok whole (show data.offset < t.image.length by omega)
      refine .inl ⟨.rom s (t.image.byte data.offset) pauseMs data, ?_,
        BitCursor.inside_new inside 8, by simp [Phase.rom], ?_⟩
      · simp only [Entry.ofBlock, Entry.ofKind, if_neg empty, flag]
        rfl
      · simp only [beats, intervalsOf, if_neg empty, intervals_rom]
  | turboSpeed pilotPulse sync1 sync2 zeroPulse onePulse pilotLength usedBits pauseMs data =>
    refine .inl ⟨_, rfl, BitCursor.inside_new (fits data rfl) usedBits, by simp, ?_⟩
    simp only [beats, intervalsOf, Phase.intervals, intervals_new, List.append_assoc]
  | pureTone width count => exact .inl ⟨.tone width count.toNat, rfl, trivial, by simp, rfl⟩
  | pulseSequence widths => exact .inl ⟨.pulses widths, rfl, trivial, by simp, rfl⟩
  | pureData zeroPulse onePulse usedBits pauseMs data =>
    exact .inl ⟨_, rfl, BitCursor.inside_new (fits data rfl) usedBits, by simp, rfl⟩
  | directRecording ticksPerSample pauseMs usedBits data =>
    exact .inl ⟨_, rfl, BitCursor.inside_new (fits data rfl) usedBits, by simp, rfl⟩
  | pause ms =>
    refine .inl ⟨.pause (s.ticksOfMs ms), ?_, trivial, by simp, rfl⟩
    simp only [Entry.ofBlock, Entry.ofKind, if_neg (of_decide_eq_true plain)]
  | signalLevel level => exact .inr (.inl ⟨level, rfl, rfl⟩)
  | csw | jump | loopStart | loopEnd | callSequence | callReturn | stopIf48K =>
    exact absurd plain Bool.false_ne_true
  | _ => exact .inr (.inr ⟨rfl, rfl, fun _ _ => rfl⟩)

/-- Entering a plain block comes to what it does to the line. -/
theorem enters (whole : t.image.Whole) (read : t.blockAt? o = .ok (some b)) (plain : b.isPlain) :
    b.Enters s t.image := by
  cases b with
  | tap c => exact enters_tap whole read
  | tzx c => exact enters_tzx whole read plain

end Block

end Cassette
