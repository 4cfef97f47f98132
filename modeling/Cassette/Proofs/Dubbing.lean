import Mathlib.Algebra.Ring.Parity
import Cassette.Proofs.Appending
import Cassette.Proofs.Listening
import Cassette.Proofs.Playback

/-! Dubbing: a tape is played into a recorder, which is told the level after every call of
`advance`. The pulses of a block come an odd number at a time, so the line is high in the last
of them, the pause behind it begins with an edge, and the next block begins with another, far
enough behind for the recorder to end the block. Main statement: `dub_payloads`, a TAP image
that is dubbed comes out as its payloads, and these framed anew are the image without its empty
blocks. -/

namespace Cassette

open Signal

/-! ### Edges -/

theorem Signal.heard_pulses (level : Bool) (widths : List Nat) (beats : List Beat) :
    heard level (widths.map (.start ∘ pulse) ++ beats) =
      heard level (widths.map (.start ∘ pulse)) ++ heard (not^[widths.length] level) beats := by
  induction widths generalizing level with
  | nil => rfl
  | cons width rest ih =>
    simp only [List.map_cons, List.cons_append, Function.comp_apply, heard, Swing.apply, pulse,
      List.length_cons, Function.iterate_succ_apply]
    exact congrArg _ (ih (!level))

theorem Signal.ticks_of_heard {level : Bool} {beats : List Beat} {i : Bool × Nat}
    (mem : i ∈ heard level beats) : ∃ interval, .start interval ∈ beats ∧ i.2 = interval.ticks := by
  induction beats generalizing level with
  | nil => exact nomatch mem
  | cons beat rest ih =>
    cases beat with
    | start interval =>
      rcases List.mem_cons.1 mem with rfl | later
      · exact ⟨interval, by simp, rfl⟩
      · obtain ⟨other, among, ticks⟩ := ih later
        exact ⟨other, by simp [among], ticks⟩
    | set level' =>
      obtain ⟨other, among, ticks⟩ := @ih level' mem
      exact ⟨other, by simp [among], ticks⟩

namespace Recorder

variable {r r' : Recorder} {level : Bool} {tick width : Nat} {widths : List Nat}

/-- Is told the level at the start of intervals that follow each other from a tick on; gives the
blocks that end there. -/
def listen (r : Recorder) (tick : Nat) : List (Bool × Nat) → List Bytes × Recorder
  | [] => ([], r)
  | (level, ticks) :: rest =>
    let (block, r) := r.edge level tick
    let (blocks, r) := r.listen (tick + ticks) rest
    (block.toList ++ blocks, r)

/-- A train of pulses is heard through up to the edge at its end, where the level swings once
more. -/
theorem listen_train (hears : r.Hears (width :: widths) r')
    (short : ∀ w ∈ width :: widths, w ≤ r.silence) (level : Bool) (tick ticks : Nat)
    (rest : List (Bool × Nat)) :
    (r.turned level tick).listen (tick + width) (heard level (widths.map (.start ∘ Signal.pulse)) ++
        (!not^[widths.length] level, ticks) :: rest) =
      (r'.turned (!not^[widths.length] level) (tick + (width + widths.sum))).listen
        (tick + (width + widths.sum) + ticks) rest := by
  induction widths generalizing r width level tick with
  | nil =>
    obtain _ | ⟨pulsed, on⟩ := hears
    cases on
    have heard := edge_soon level tick (short width (by simp))
    rw [pulsed] at heard
    simp only [List.map_nil, Signal.heard, List.nil_append, List.length_nil, Function.iterate_zero,
      id_eq, listen, heard, List.sum_nil, Nat.add_zero, Option.toList_none]
  | cons next rest' ih =>
    obtain _ | ⟨pulsed, on⟩ := hears
    have heard := edge_soon level tick (short width (by simp))
    have kept := (r.pulse_kept width).2
    rw [pulsed] at heard kept
    have through := ih on (fun w hw => kept ▸ short w (List.mem_cons_of_mem _ hw)) (!level)
      (tick + width)
    rw [show tick + width + (next + rest'.sum) = tick + (width + (next + rest'.sum)) by omega]
      at through
    simp only [List.map_cons, Function.comp_apply, Signal.heard, Swing.apply, Signal.pulse,
      List.cons_append, listen, heard, Option.toList_none, List.nil_append, List.length_cons,
      Function.iterate_succ_apply, List.sum_cons] at through ⊢
    exact through

/-- In front of a block: the line is low, and nothing has been heard yet or a gap longer than the
silence lies behind the latest edge. -/
structure Waiting (r : Recorder) (tick : Nat) : Prop where
  low : r.level = false
  gap : ∀ last, r.edge? = some last → r.silence < tick - last
  fresh : r.edge? = none → r.Poised

/-- The edge with which a block begins ends the block before it. -/
theorem Waiting.edge (waiting : r.Waiting tick) :
    ∃ r' : Recorder, r.edge true tick = (r.endBlock.1, r'.turned true tick) ∧ r'.Poised ∧
      r'.timings = r.timings ∧ r'.silence = r.silence := by
  have change : true ≠ r.level := by simp [waiting.low]
  cases edge : r.edge? with
  | some last => exact edge_late change edge (waiting.gap last edge)
  | none =>
    have poised := waiting.fresh edge
    have none : r.endBlock.1 = none := by
      simp only [endBlock, poised.bytes]
      rfl
    refine ⟨r, ?_, poised, rfl, rfl⟩
    simp only [Recorder.edge, if_neg change, edge, none]
    rfl

/-- At the end of a tape whatever was being heard is ended, either by a last edge or by hand. -/
theorem Waiting.listen_last (waiting : r.Waiting tick) (level : Bool) :
    (r.listen tick [(level, 0)]).1 ++ (r.listen tick [(level, 0)]).2.finish.1.toList =
      r.endBlock.1.toList := by
  cases level with
  | false =>
    have same : r.edge false tick = (none, r) := by
      simp only [Recorder.edge, waiting.low, ↓reduceIte]
    simp only [listen, same]
    rfl
  | true =>
    obtain ⟨r', edge, poised, -, -⟩ := waiting.edge
    have nothing : (r'.turned true tick).finish.1 = none := by
      simp only [finish, turned, endBlock, poised.bytes]
      rfl
    simp only [listen, edge, nothing, Option.toList_none, List.append_nil]

end Recorder

/-! ### Settings -/

namespace Settings

def silence (s : Settings) : Nat := Recorder.silenceFor s.timings s.ticksPerSecond

/-- A recorder can follow what a player sends, if both have the same settings. -/
structure Dubbable (s : Settings) : Prop where
  header_odd : s.timings.headerPilot.toNat % 2 = 1
  header_long : 256 ≤ s.timings.headerPilot.toNat
  data_odd : s.timings.dataPilot.toNat % 2 = 1
  data_long : 256 ≤ s.timings.dataPilot.toNat
  pilot_pos : 0 < s.timings.pilotPulse.toNat
  sync1_pos : 0 < s.timings.sync1.toNat
  sync2_pos : 0 < s.timings.sync2.toNat
  zero_pos : 0 < s.timings.zeroPulse.toNat
  zero_lt_one : s.timings.zeroPulse.toNat < s.timings.onePulse.toNat
  sync1_other : Recorder.near s.timings.sync1.toNat s.timings.pilotPulse = false
  pilot_le : s.timings.pilotPulse.toNat ≤ s.silence
  sync1_le : s.timings.sync1.toNat ≤ s.silence
  sync2_le : s.timings.sync2.toNat ≤ s.silence
  silence_lt : s.silence < s.ticksOfMs s.blockPauseMs

/-- Nobody needs to change the settings to dub a tape. -/
theorem standard_dubbable : standard.Dubbable := by
  constructor <;> decide

variable {s : Settings}

theorem Dubbable.pilotLength (h : s.Dubbable) (flag : UInt8) :
    (s.timings.pilotLength flag).toNat % 2 = 1 ∧
      256 ≤ (s.timings.pilotLength flag).toNat := by
  unfold Timings.pilotLength
  split
  · exact ⟨h.header_odd, h.header_long⟩
  · exact ⟨h.data_odd, h.data_long⟩

theorem Dubbable.one_le (s : Settings) : s.timings.onePulse.toNat ≤ s.silence := by
  unfold silence Recorder.silenceFor
  omega

end Settings

/-! ### Pulses of the ROM -/

open Tzx (Span)

/-- The widths of the pulses with which the ROM saves a payload. -/
def romWidths (s : Settings) (image : Image) (data : Span) : List Nat :=
  let t := s.timings
  List.replicate (t.pilotLength (image.byte data.offset)).toNat t.pilotPulse.toNat ++
    t.sync1.toNat :: t.sync2.toNat ::
      DataCursor.pulsesOf t.zeroPulse t.onePulse (payloadBits image 8 data)

theorem romIntervals_eq (s : Settings) (image : Image) (pauseMs : UInt16) (data : Span) :
    romIntervals s image pauseMs data =
      (romWidths s image data).map pulse ++ silence (s.ticksOfMs pauseMs) := by
  simp [romIntervals, romWidths, leader, bitPulses, pauseOf, Timings.pilotLength,
    Settings.ticksOfMs]

section Rom

variable {s : Settings} {image : Image} {data : Span} {r : Recorder}

theorem Settings.Dubbable.spells (h : s.Dubbable) (timings : r.timings = s.timings)
    (bits : List Bool) :
    r.Spells bits (DataCursor.pulsesOf s.timings.zeroPulse s.timings.onePulse bits) := by
  have between := h.zero_lt_one
  induction bits with
  | nil => exact .nil
  | cons b bits ih =>
    cases b with
    | false =>
      have half : r.isHalf s.timings.zeroPulse.toNat := by
        simp [Recorder.isHalf, timings, Recorder.near_self]
      refine .cons half half ?_ ih
      simp only [timings, DataCursor.widthOf, Bool.false_eq_true, ↓reduceIte,
        decide_eq_false_iff_not]
      omega
    | true =>
      have half : r.isHalf s.timings.onePulse.toNat := by
        simp [Recorder.isHalf, timings, Recorder.near_self]
      refine .cons half half ?_ ih
      simp only [timings, DataCursor.widthOf, ↓reduceIte, decide_eq_true_eq]
      omega

theorem Settings.Dubbable.saves (h : s.Dubbable) (poised : r.Poised)
    (timings : r.timings = s.timings) (whole : image.Whole) (inside : data.stop ≤ image.length) :
    r.Saves (image.slice data.offset data.length).toList (romWidths s image data) := by
  have long := (h.pilotLength (image.byte data.offset)).2
  have spells := h.spells timings (payloadBits image 8 data)
  rw [payloadBits_eq whole inside] at spells
  simp only [romWidths, payloadBits_eq whole inside]
  refine .block (by simpa using long) ?_ (fun w hw => ?_) ?_ ?_ ?_ spells
  · have counted := poised.piloted_le
    have few := (s.timings.pilotLength (image.byte data.offset)).toNat_lt
    rw [List.length_replicate]
    omega
  · rw [List.eq_of_mem_replicate hw, timings]
    exact Recorder.near_self _
  · rw [timings]
    exact h.sync1_other
  · rw [timings]
    exact Recorder.near_self _
  · rw [timings]
    exact Recorder.near_self _

/-- Each of the pulses lasts, but none so long that it ends a block. -/
theorem Settings.Dubbable.lasts (h : s.Dubbable) {width : Nat}
    (mem : width ∈ romWidths s image data) : 0 < width ∧ width ≤ s.silence := by
  have one := Dubbable.one_le s
  have between := h.zero_lt_one
  have zero := h.zero_pos
  simp only [romWidths, List.mem_append, List.mem_cons] at mem
  rcases mem with pilot | rfl | rfl | half
  · rw [List.eq_of_mem_replicate pilot]
    exact ⟨h.pilot_pos, h.pilot_le⟩
  · exact ⟨h.sync1_pos, h.sync1_le⟩
  · exact ⟨h.sync2_pos, h.sync2_le⟩
  · obtain ⟨b, -, twice⟩ := List.mem_flatMap.1 half
    rw [List.eq_of_mem_replicate twice]
    cases b with
    | false => exact ⟨zero, show s.timings.zeroPulse.toNat ≤ s.silence by omega⟩
    | true => exact ⟨show 0 < s.timings.onePulse.toNat by omega, one⟩

/-- There is an odd number of pulses, so the line is high in the last if it was low before. -/
theorem Settings.Dubbable.odd (h : s.Dubbable) :
    ∃ width rest, romWidths s image data = width :: rest ∧ Even rest.length := by
  obtain ⟨odd, -⟩ := h.pilotLength (image.byte data.offset)
  obtain ⟨n, counted⟩ := Nat.exists_eq_add_one_of_ne_zero
    (show (s.timings.pilotLength (image.byte data.offset)).toNat ≠ 0 by omega)
  have pairs (bits : List Bool) :
      Even (DataCursor.pulsesOf s.timings.zeroPulse s.timings.onePulse bits).length := by
    refine ⟨bits.length, ?_⟩
    simp only [DataCursor.pulsesOf, List.length_flatMap, List.length_replicate, List.map_const',
      List.sum_replicate_nat, Nat.mul_two]
  simp only [romWidths, counted, List.replicate_succ, List.cons_append]
  refine ⟨_, _, rfl, ?_⟩
  have even : Even n := Nat.even_iff.2 (by omega)
  simp only [List.length_append, List.length_replicate, List.length_cons]
  exact even.add (Nat.even_add_one.2 (Nat.even_add_one.not.2 (not_not.2 (pairs _))))

end Rom

/-! ### Blocks -/

namespace Block

def saved? (image : Image) (b : Block) : Option Bytes :=
  (b.payloadIn image).filter fun payload => 0 < payload.size

variable {t : Tape} {s : Settings} {b : Block} {r : Recorder} {tick : Nat}

/-- A block of a TAP image is silent and empty, or sends its payload with the pulses of the ROM. -/
theorem tap_cases (whole : t.image.Whole) (tap : t.format = .tap) {o : Nat}
    (read : t.blockAt? o = .ok (some b)) (s : Settings) :
    (b.beats s t.image = [] ∧ b.saved? t.image = none) ∨
      ∃ data : Span, data.stop ≤ t.image.length ∧
        b.beats s t.image = (romIntervals s t.image s.blockPauseMs data).map .start ∧
        b.saved? t.image = some (t.image.slice data.offset data.length) := by
  obtain ⟨c, -, rfl⟩ := (Tape.blockAt?_tap tap).1 read
  let data : Span := ⟨c.payloadStart, c.length.toNat⟩
  have inside : data.stop ≤ t.image.length := Tape.payload_fits whole read data rfl
  have size : (t.image.slice data.offset data.length).size = c.length.toNat :=
    Image.size_slice whole inside
  have payload : (Block.tap c).payloadIn t.image =
      some (t.image.slice data.offset data.length) := rfl
  by_cases empty : c.length = 0
  · have none : c.length.toNat = 0 := by rw [empty]; rfl
    refine .inl ⟨if_pos empty, ?_⟩
    simp only [saved?, payload, Option.filter_some, size, none, Nat.lt_irrefl, decide_false,
      Bool.false_eq_true, ↓reduceIte]
  · have some : 0 < c.length.toNat := Nat.pos_of_ne_zero fun h => empty (UInt16.toNat_inj.1 h)
    refine .inr ⟨data, inside, if_neg empty, ?_⟩
    simp only [saved?, payload, Option.filter_some, size, some, decide_true, ↓reduceIte]

end Block

section Telling

variable {t : Tape} {s : Settings} {data : Span} {r : Recorder} {tick : Nat}

/-- The line is high in every other pulse of a block, so also in the last, and low behind it. -/
theorem Settings.Dubbable.heard_block (h : s.Dubbable) {width : Nat} {widths : List Nat}
    (pulses : romWidths s t.image data = width :: widths) (even : Even widths.length)
    (beats : List Beat) :
    heard false ((romIntervals s t.image s.blockPauseMs data).map .start ++ beats) =
      (true, width) :: (heard true (widths.map (.start ∘ pulse)) ++
        (!not^[widths.length] true, s.ticksOfMs s.blockPauseMs) :: heard false beats) := by
  have long := h.silence_lt
  have pause : Signal.silence (s.ticksOfMs s.blockPauseMs) =
      [⟨.set false, s.ticksOfMs s.blockPauseMs⟩] := if_neg (by omega)
  have high : not^[widths.length] true = true := by
    rw [Bool.involutive_not.iterate_even even]
    rfl
  rw [romIntervals_eq, pulses, pause]
  simp only [List.map_append, List.map_cons, List.map_map, List.map_nil, List.cons_append,
    List.append_assoc, List.nil_append, heard, Swing.apply, pulse, Bool.not_false]
  rw [heard_pulses, high]
  rfl

namespace Recorder

/-- Told of the intervals of a block, a recorder gives the block before it and then waits for
the next with the payload in hand. -/
theorem Waiting.listen_block (h : s.Dubbable) (whole : t.image.Whole)
    (inside : data.stop ≤ t.image.length) (some : 0 < (t.image.slice data.offset data.length).size)
    (waiting : r.Waiting tick) (timings : r.timings = s.timings) (silence : r.silence = s.silence) :
    ∃ (r' : Recorder) (tick' : Nat), r'.Waiting tick' ∧ r'.timings = s.timings ∧
      r'.silence = s.silence ∧ r'.endBlock.1 = .some (t.image.slice data.offset data.length) ∧
      ∀ beats rest, r.listen tick
          (heard false ((romIntervals s t.image s.blockPauseMs data).map .start ++ beats) ++ rest) =
        (r.endBlock.1.toList ++ (r'.listen tick' (heard false beats ++ rest)).1,
          (r'.listen tick' (heard false beats ++ rest)).2) := by
  obtain ⟨r₁, edge, poised, timings₁, silence₁⟩ := waiting.edge
  obtain ⟨width, widths, pulses, even⟩ :
      ∃ width widths, romWidths s t.image data = width :: widths ∧ Even widths.length := h.odd
  have soon : ∀ w ∈ width :: widths, w ≤ r₁.silence := fun w hw => by
    rw [silence₁, silence]
    exact (h.lasts (pulses ▸ hw)).2
  have hears := hears_block poised (h.saves poised (timings₁.trans timings) whole inside)
  rw [pulses] at hears
  let r₂ : Recorder := { r₁ with
    listening := .data none
    bytes := (t.image.slice data.offset data.length).toList.toArray
    bits := [] }
  let last := tick + (width + widths.sum)
  have high : not^[widths.length] true = true := by
    rw [Bool.involutive_not.iterate_even even]
    rfl
  refine ⟨r₂.turned false last, last + s.ticksOfMs s.blockPauseMs, ⟨rfl, ?_, nofun⟩,
    timings₁.trans timings, silence₁.trans silence, ?_, fun beats rest => ?_⟩
  · rintro _ ⟨⟩
    rw [Nat.add_sub_cancel_left]
    exact (silence₁.trans silence).symm ▸ h.silence_lt
  · have filled : ¬ (t.image.slice data.offset data.length).isEmpty := by
      rw [Array.isEmpty_iff_size_eq_zero]
      exact Nat.ne_of_gt some
    simp only [turned, r₂, endBlock, Array.toArray_toList]
    exact if_neg filled
  · have train := listen_train hears soon true tick (s.ticksOfMs s.blockPauseMs)
      (heard false beats ++ rest)
    rw [high] at train
    simp only [h.heard_block pulses even, List.cons_append, List.append_assoc, listen, edge, high,
      train]
    rfl

theorem Waiting.listen_blocks (h : s.Dubbable) (whole : t.image.Whole) (tap : t.format = .tap)
    {bs : List Block} (read : ∀ b ∈ bs, ∃ o, t.blockAt? o = .ok (some b)) (waiting : r.Waiting tick)
    (timings : r.timings = s.timings) (silence : r.silence = s.silence) (level : Bool) :
    let told := r.listen tick (heard false (bs.flatMap (Block.beats s t.image)) ++ [(level, 0)])
    told.1 ++ told.2.finish.1.toList =
      r.endBlock.1.toList ++ bs.filterMap (Block.saved? t.image) := by
  induction bs generalizing r tick with
  | nil =>
    simp only [List.flatMap_nil, heard, List.nil_append, List.filterMap_nil, List.append_nil]
    exact waiting.listen_last level
  | cons b bs ih =>
    obtain ⟨o, here⟩ := read b (by simp)
    have rest : ∀ b ∈ bs, ∃ o, t.blockAt? o = .ok (some b) := fun b hb => read b (by simp [hb])
    rcases Block.tap_cases whole tap here s with ⟨silent, empty⟩ | ⟨data, inside, sends, saved⟩
    · simp only [List.flatMap_cons, silent, List.nil_append, List.filterMap_cons_none empty]
      exact ih rest waiting timings silence
    · have some : 0 < (t.image.slice data.offset data.length).size :=
        of_decide_eq_true (Option.filter_eq_some_iff.1 saved).2
      obtain ⟨r', tick', waiting', timings', silence', held, told⟩ :=
        waiting.listen_block h whole inside some timings silence
      have others := ih rest waiting' timings' silence'
      rw [held] at others
      simp only [List.flatMap_cons, sends, told, List.append_assoc, List.filterMap_cons_some saved]
      exact congrArg (r.endBlock.1.toList ++ ·) others

end Recorder

end Telling

/-! ### Players -/

namespace Player

variable {t : Tape} {x : Index} {p q : Player} {fuel : Nat}

/-- Plays on until the tape halts, and tells a recorder the level and the tick after every call
of `advance`, each of which lets the ticks to the next edge pass; gives the blocks recorded. None
if the calls or the edges of a call were not enough. -/
def dub (t : Tape) (x : Index) : (fuel : Nat) → Player → Recorder → (tick : Nat) →
    Option (Except Fault (List Bytes))
  | 0, _, _, _ => none
  | fuel + 1, p, r, tick =>
    if p.playing then
      match p.advance t x (fuel + 1) p.remaining with
      | none => none
      | some (_, .error fault) => some (.error fault)
      | some (q, .ok played) =>
        let (block, r) := r.edge q.level (tick + played)
        (dub t x fuel q r (tick + played)).map (·.map (block.toList ++ ·))
    else some (.ok r.finish.1.toList)

/-- Time up to the next edge starts an interval, and if that lasts, nothing more. -/
theorem advance_edge (walked : { p with remaining := 0 }.startInterval t x = (q, .ok ()))
    (playing : p.playing = true) (still : q.playing = true) (lasts : 0 < q.remaining) :
    p.advance t x (fuel + 2) p.remaining = some (q, .ok p.remaining) := by
  rw [advance, spend_late playing (Nat.le_refl _), walked]
  simp only [Nat.sub_self, spend_early still lasts]
  rfl

theorem advance_halt (walked : { p with remaining := 0 }.startInterval t x = (q, .ok ()))
    (playing : p.playing = true) (halted : q.playing = false) :
    p.advance t x (fuel + 2) p.remaining = some (q, .ok p.remaining) := by
  rw [advance, spend_late playing (Nat.le_refl _), walked]
  simp [spend_stopped halted, Except.map]

/-- If every interval that is played lasts, a recorder is told of one after the other. -/
theorem Plays.dub {l : List (Bool × Nat)} (plays : p.Plays t x l q) (playing : p.playing = true)
    (lasts : ∀ i ∈ l, 0 < i.2) (enough : l.length + 2 ≤ fuel) (r : Recorder) (tick : Nat) :
    let told := r.listen (tick + p.remaining) (l ++ [(q.level, 0)])
    dub t x fuel p r tick = some (.ok (told.1 ++ told.2.finish.1.toList)) := by
  induction plays generalizing fuel r tick with
  | @halt p q walked halted =>
    obtain ⟨fuel, rfl⟩ : ∃ n, fuel = n + 2 := Nat.exists_eq_add_of_le' enough
    have played : p.advance t x (fuel + 2) p.remaining = some (q, .ok p.remaining) :=
      advance_halt walked playing halted
    rw [Player.dub, if_pos playing, played]
    simp only [Player.dub, halted, List.nil_append, Recorder.listen, List.append_nil]
    rfl
  | @edge p q last rest walked still on ih =>
    obtain ⟨fuel, rfl⟩ : ∃ n, fuel = n + 2 := ⟨fuel - 2, by omega⟩
    have played : p.advance t x (fuel + 2) p.remaining = some (q, .ok p.remaining) :=
      advance_edge walked playing still (lasts (q.level, q.remaining) (by simp))
    have fewer : rest.length + 2 ≤ fuel + 1 := by
      rw [List.length_cons] at enough
      omega
    rw [Player.dub, if_pos playing, played]
    simp only [ih still (fun i hi => lasts i (by simp [hi])) fewer, Option.map_some, Except.map,
      List.cons_append, Recorder.listen, List.append_assoc]

end Player

/-! ### Tapes -/

namespace Tape

variable {t : Tape} {x : Index}

/-- The payloads of the blocks that are not empty, in order. -/
def payloads (t : Tape) : List Bytes := t.scan.blocks.toList.filterMap (Block.saved? t.image)

def filled (t : Tape) : List Nat :=
  (List.range t.scan.blocks.size).filter fun k =>
    (t.scan.blocks[k]?.bind (Block.saved? t.image)).isSome

/-- Framed one behind the other, the payloads of blocks are these blocks without the empty ones. -/
theorem frames_saved (h : Indexed t x) (tap : t.format = .tap) {ordinals : List Nat}
    (inside : ∀ k ∈ ordinals, k < x.count) :
    let saved k := t.scan.blocks[k]?.bind (Block.saved? t.image)
    Tap.frames (ordinals.filterMap saved) =
      (t.extents (ordinals.filter fun k => (saved k).isSome), .ok ()) := by
  intro saved
  induction ordinals with
  | nil => rfl
  | cons k rest ih =>
    have others := ih fun k hk => inside k (by simp [hk])
    obtain ⟨b, found, read, next⟩ := h.read (inside k (by simp))
    have here : saved k = b.saved? t.image := by
      simp only [saved, found]
      rfl
    cases payload : b.saved? t.image with
    | none =>
      have none : (saved k).isSome = false := by rw [here, payload]; rfl
      rw [List.filterMap_cons_none (here.trans payload), List.filter_cons_of_neg (by simp [none])]
      exact others
    | some bytes =>
      have some : (saved k).isSome = true := by rw [here, payload]; rfl
      have framed := frame_payload h.whole tap read (Option.filter_eq_some_iff.1 payload).1
      rw [List.filterMap_cons_some (here.trans payload),
        List.filter_cons_of_pos (p := fun k => (saved k).isSome) some, Tap.frames, framed, others]
      simp only [extents, extent_eq next]

theorem payloads_eq (t : Tape) :
    t.payloads = (List.range t.scan.blocks.size).filterMap
      fun k => t.scan.blocks[k]?.bind (Block.saved? t.image) := by
  have numbered (l : List Block) :
      l.filterMap (Block.saved? t.image) =
        (List.range l.length).filterMap fun k => l[k]?.bind (Block.saved? t.image) := by
    induction l with
    | nil => rfl
    | cons b rest ih =>
      rw [List.length_cons, List.range_succ_eq_map, List.filterMap_cons, List.filterMap_cons,
        List.filterMap_map, ih]
      rfl
  simpa only [payloads, Array.length_toList, Array.getElem?_toList] using
    numbered t.scan.blocks.toList

theorem lasts (h : Indexed t x) (tap : t.format = .tap) {s : Settings} (dubbable : s.Dubbable)
    (level : Bool) :
    ∀ i ∈ heard level (t.scan.blocks.toList.flatMap (Block.beats s t.image)), 0 < i.2 := by
  intro i mem
  obtain ⟨interval, started, ticks⟩ := Signal.ticks_of_heard mem
  obtain ⟨b, member, sent⟩ := List.mem_flatMap.1 started
  obtain ⟨o, read⟩ := h.read_of_mem member
  rcases Block.tap_cases h.whole tap read s with ⟨silent, -⟩ | ⟨data, -, sends, -⟩
  · rw [silent] at sent
    exact nomatch sent
  · rw [sends, romIntervals_eq, List.mem_map] at sent
    obtain ⟨_, either, ⟨⟩⟩ := sent
    rw [ticks]
    rcases List.mem_append.1 either with pulsed | paused
    · obtain ⟨width, sound, rfl⟩ := List.mem_map.1 pulsed
      exact (dubbable.lasts sound).1
    · by_cases none : s.ticksOfMs s.blockPauseMs = 0
      · rw [Signal.silence, if_pos none] at paused
        exact nomatch paused
      · rw [Signal.silence, if_neg none, List.mem_singleton] at paused
        rw [paused]
        exact Nat.pos_of_ne_zero none

/-- A TAP image that is played to its end, by a new player into a new recorder with the same
settings, comes out as its payloads, byte for byte; and these framed one behind the other are
the image without its empty blocks. -/
theorem dub_payloads (h : Indexed t x) (tap : t.format = .tap) (few : x.count < 0x100000)
    {s : Settings} (dubbable : s.Dubbable) :
    (∃ enough, ∀ fuel, enough ≤ fuel →
      (Player.new s t.start).play.dub t x fuel (.new s.timings s.ticksPerSecond) 0 =
        some (.ok t.payloads)) ∧
      Tap.frames t.payloads = (t.extents t.filled, .ok ()) := by
  have read : ∀ b ∈ t.scan.blocks.toList, ∃ o, t.blockAt? o = .ok (some b) :=
    fun b member => h.read_of_mem member
  let p := (Player.new s t.start).play
  have standing : p.Standing t x := (Player.Reachable.play .new).standing h (s := s)
  obtain ⟨q, plays, -, -⟩ := Player.plays_ahead h (h.isPlain_of_tap tap) few standing rfl trivial
  have ahead : p.ahead t = heard false (t.scan.blocks.toList.flatMap (Block.beats s t.image)) := rfl
  rw [ahead] at plays
  let started := heard false (t.scan.blocks.toList.flatMap (Block.beats s t.image))
  let r : Recorder := .new s.timings s.ticksPerSecond
  have waiting : r.Waiting 0 := ⟨rfl, nofun, fun _ => ⟨.inl rfl, rfl, rfl⟩⟩
  have told := waiting.listen_blocks dubbable h.whole tap read rfl rfl q.level
  refine ⟨⟨started.length + 2, fun fuel enough => ?_⟩, ?_⟩
  · rw [plays.dub rfl (lasts h tap dubbable false) enough r 0]
    exact congrArg (some ∘ Except.ok) told
  · rw [payloads_eq]
    exact frames_saved h tap fun k hk => by
      rw [h.count_eq]
      exact List.mem_range.1 hk

/-- Of three blocks the one in the middle is empty, and the settings are as they come. -/
theorem dub_payloads_gap :
    let t : Tape := ⟨.tap, .ofBytes #[2, 0, 1, 0xA5, 0, 0, 1, 0, 0xFF], none⟩
    let s := Settings.standard
    Indexed t ⟨#[0], 3⟩ ∧ s.Dubbable ∧ (∃ enough, ∀ fuel, enough ≤ fuel →
      (Player.new s 0).play.dub t ⟨#[0], 3⟩ fuel (.new s.timings s.ticksPerSecond) 0 =
        some (.ok [#[1, 0xA5], #[0xFF]])) ∧
      Tap.frames [#[1, 0xA5], #[0xFF]] = (#[2, 0, 1, 0xA5, 1, 0, 0xFF], .ok ()) := by
  intro t s
  have indexed : Indexed t ⟨#[0], 3⟩ := ⟨rfl, by decide +kernel⟩
  have payloads : t.payloads = [#[1, 0xA5], #[0xFF]] := by decide +kernel
  have kept : t.extents t.filled = #[2, 0, 1, 0xA5, 1, 0, 0xFF] := by decide +kernel
  obtain ⟨dubbed, framed⟩ :=
    dub_payloads indexed rfl (by decide) Settings.standard_dubbable
  rw [payloads] at dubbed framed
  rw [kept] at framed
  exact ⟨indexed, Settings.standard_dubbable, dubbed, framed⟩

end Tape

end Cassette
