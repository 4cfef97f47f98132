import Cassette.Proofs.Layout
import Cassette.Proofs.Tracing

/-! Recordings packed as run lengths. `runsOf` reads from the bytes of a payload how many samples
each run lasts, and `widths` makes of the numbers the pulses: each run ends at the tick of all
samples so far, so that what is lost in rounding does not add up (`sum_widths`). A cursor gives
just these pulses, one at a time (`RunCursor.next_runs`). Main statement: `unpacks`, what is heard
of such a recording from when it is entered to its end, or to where it is cut short. -/

namespace Cassette

open Signal

namespace Signal

/-! ### Runs of a payload -/

/-- The lengths of runs, and whether the last of them is cut short. A run is told in one byte, or
in four behind a zero. -/
def runsOf : List UInt8 → List Nat × Bool
  | [] => ([], false)
  | byte :: rest =>
    if byte ≠ 0 then (byte.toNat :: (runsOf rest).1, (runsOf rest).2)
    else
      match rest with
      | b₀ :: b₁ :: b₂ :: b₃ :: rest =>
        (LittleEndian.value [b₀, b₁, b₂, b₃] :: (runsOf rest).1, (runsOf rest).2)
      | _ => ([], true)

/-- The lengths in ticks of runs of so many samples that follow so many others. -/
def widths (rate ticksPerSecond : Nat) : (samples : Nat) → List Nat → List Nat
  | _, [] => []
  | samples, count :: counts =>
    (RunCursor.tickOf rate ticksPerSecond (samples + count) -
      RunCursor.tickOf rate ticksPerSecond samples) ::
      widths rate ticksPerSecond (samples + count) counts

variable {image : Image} {s : Settings} {rate ticksPerSecond : Nat}

theorem tickOf_mono {m n : Nat} (le : m ≤ n) :
    RunCursor.tickOf rate ticksPerSecond m ≤ RunCursor.tickOf rate ticksPerSecond n := by
  have scaled := Nat.div_le_div_right (c := rate) (Nat.mul_le_mul_right ticksPerSecond le)
  simp only [RunCursor.tickOf]
  omega

theorem length_widths (samples : Nat) (counts : List Nat) :
    (widths rate ticksPerSecond samples counts).length = counts.length := by
  induction counts generalizing samples with
  | nil => rfl
  | cons count counts ih => rw [widths, List.length_cons, List.length_cons, ih]

/-- However many runs have passed, they have lasted until the tick of their samples. -/
theorem sum_widths (samples : Nat) (counts : List Nat) (k : Nat) :
    RunCursor.tickOf rate ticksPerSecond samples +
      ((widths rate ticksPerSecond samples counts).take k).sum =
      RunCursor.tickOf rate ticksPerSecond (samples + (counts.take k).sum) := by
  induction counts generalizing samples k with
  | nil => simp [widths]
  | cons count counts ih =>
    cases k with
    | zero => simp
    | succ k =>
      have later : RunCursor.tickOf rate ticksPerSecond samples ≤
          RunCursor.tickOf rate ticksPerSecond (samples + count) :=
        tickOf_mono (Nat.le_add_right samples count)
      have rest := ih (samples + count) k
      simp only [widths, List.take_succ_cons, List.sum_cons, ← Nat.add_assoc] at rest ⊢
      omega

/-- Each run lasts less than 2³² samples, and takes up a byte at least. -/
theorem sum_runsOf_le (bytes : List UInt8) :
    (runsOf bytes).1.sum ≤ bytes.length * (2 ^ 32 - 1) := by
  fun_induction runsOf bytes with
  | case1 => exact Nat.zero_le _
  | case2 byte rest nonzero ih =>
    have := byte.toNat_lt
    simp only [List.sum_cons, List.length_cons]
    omega
  | case3 _ _ b₀ b₁ b₂ b₃ rest ih =>
    have := b₀.toNat_lt
    have := b₁.toNat_lt
    have := b₂.toNat_lt
    have := b₃.toNat_lt
    simp only [List.sum_cons, List.length_cons, LittleEndian.value]
    omega
  | case4 => exact Nat.zero_le _

def bytesFrom (image : Image) (data : Tzx.Span) (start : Nat) : List UInt8 :=
  (List.range' start (data.length - start)).map fun i => image.byte (data.offset + i)

theorem bytesFrom_of_le {data : Tzx.Span} {start : Nat} (ended : data.length ≤ start) :
    bytesFrom image data start = [] := by
  rw [bytesFrom, Nat.sub_eq_zero_of_le ended]
  rfl

theorem bytesFrom_of_lt {data : Tzx.Span} {start : Nat} (more : start < data.length) :
    bytesFrom image data start =
      image.byte (data.offset + start) :: bytesFrom image data (start + 1) := by
  rw [bytesFrom, bytesFrom, show data.length - start = data.length - (start + 1) + 1 by omega]
  rfl

theorem length_bytesFrom (data : Tzx.Span) (start : Nat) :
    (bytesFrom image data start).length = data.length - start := by
  rw [bytesFrom, List.length_map, List.length_range']

theorem runsOf_short {bytes : List UInt8} (short : bytes.length < 4) :
    runsOf (0 :: bytes) = ([], true) := by
  match bytes with
  | [] | [_] | [_, _] | [_, _, _] => rfl
  | _ :: _ :: _ :: _ :: rest =>
    simp only [List.length_cons] at short
    omega

theorem runsOf_of_ne {byte : UInt8} (nonzero : byte ≠ 0) (rest : List UInt8) :
    runsOf (byte :: rest) = (byte.toNat :: (runsOf rest).1, (runsOf rest).2) := by
  conv => lhs; unfold runsOf
  exact if_pos nonzero

theorem bytesFrom_long (whole : image.Whole) {data : Tzx.Span} {start : Nat}
    (fits : data.stop ≤ image.length) (long : start + 4 ≤ data.length) :
    ∃ b₀ b₁ b₂ b₃, (image.slice (data.offset + start) 4).toList = [b₀, b₁, b₂, b₃] ∧
      bytesFrom image data start = b₀ :: b₁ :: b₂ :: b₃ :: bytesFrom image data (start + 4) := by
  simp only [Tzx.Span.stop] at fits
  rw [Image.toList_slice whole (by omega), bytesFrom_of_lt (by omega), bytesFrom_of_lt (by omega),
    bytesFrom_of_lt (by omega), bytesFrom_of_lt (by omega)]
  exact ⟨_, _, _, _, rfl, rfl⟩

namespace RunCursor

variable {c : RunCursor}

def runs (image : Image) (c : RunCursor) : List Nat × Bool := runsOf (bytesFrom image c.data c.read)

/-- A cursor inside its payload gives the first of the runs ahead and stands in front of the
others. -/
theorem next_runs (whole : image.Whole) (fits : c.data.stop ≤ image.length) (ticksPerSecond : Nat) :
    (c.runs image = ([], false) ∧ c.next image ticksPerSecond = .ok none) ∨
      (c.runs image = ([], true) ∧ c.next image ticksPerSecond = .error .cutShort) ∨
      ∃ count c', c.runs image = (count :: (c'.runs image).1, (c'.runs image).2) ∧
        c.next image ticksPerSecond =
          .ok (some (tickOf c.rate ticksPerSecond (c.samples + count) - c.ticks, c')) ∧
        c'.data = c.data ∧ c'.rate = c.rate ∧ c'.pauseMs = c.pauseMs ∧
        c'.samples = c.samples + count ∧
        c'.ticks = tickOf c.rate ticksPerSecond (c.samples + count) := by
  simp only [Tzx.Span.stop] at fits
  rcases Nat.lt_or_ge c.read c.data.length with more | ended
  · have here : c.position < image.length := by
      simp only [position]
      omega
    have first : bytesFrom image c.data c.read =
        image.byte c.position :: bytesFrom image c.data (c.read + 1) := bytesFrom_of_lt more
    by_cases zero : image.byte c.position = 0
    · rw [zero] at first
      rcases Nat.lt_or_ge c.data.length (c.read + 5) with short | long
      · have few : (bytesFrom image c.data (c.read + 1)).length < 4 := by
          rw [length_bytesFrom]
          omega
        refine .inr (.inl ⟨by rw [runs, first, runsOf_short few], ?_⟩)
        simp [next, Nat.not_le.2 more, nextRun, Image.byteAt_eq_ok whole here, zero, short, bind,
          Except.bind]
      · have four : c.position + 1 + 4 ≤ image.length := by
          simp only [position]
          omega
        obtain ⟨b₀, b₁, b₂, b₃, read, rest⟩ :=
          bytesFrom_long whole fits (show c.read + 1 + 4 ≤ c.data.length by omega)
        let count := LittleEndian.value (image.slice (c.position + 1) 4).toList
        refine .inr (.inr ⟨count, c.passed ticksPerSecond count 5, ?_, ?_, rfl, rfl, rfl, rfl, rfl⟩)
        · rw [runs, first, rest]
          simp only [count, position, Nat.add_assoc, read]
          rfl
        · simp only [next, Nat.not_le.2 more, ↓reduceIte, nextRun, Image.byteAt_eq_ok whole here,
            bind, Except.bind, ne_eq, zero, not_true_eq_false, Nat.not_lt.2 long,
            Image.excerpt_eq_ok whole four]
          rfl
    · refine .inr (.inr ⟨(image.byte c.position).toNat, c.passed ticksPerSecond _ 1, ?_, ?_, rfl,
        rfl, rfl, rfl, rfl⟩)
      · rw [runs, first, runsOf_of_ne zero]
        rfl
      · simp only [next, Nat.not_le.2 more, ↓reduceIte, nextRun, Image.byteAt_eq_ok whole here,
          bind, Except.bind, ne_eq, zero, not_false_eq_true]
        rfl
  · refine .inl ⟨by rw [runs, bytesFrom_of_le ended]; rfl, by simp only [next, if_pos ended]⟩

theorem runs_new (whole : image.Whole) {data : Tzx.Span} (fits : data.stop ≤ image.length)
    (pauseMs : UInt16) :
    (new data rate pauseMs).runs image =
      runsOf (image.slice data.offset data.length).toList := by
  rw [Image.toList_slice whole fits]
  rfl

end RunCursor

/-! ### Pulses of runs -/

def runPulses (s : Settings) (rate samples : Nat) (counts : List Nat) : List Interval :=
  (widths rate s.ticksPerSecond samples counts).map pulse

/-- Packed samples sound as their runs, and then they are used up or cut short. -/
theorem Phase.runs_sound (whole : image.Whole) {c : RunCursor} {counts : List Nat} {cut : Bool}
    (fits : c.data.stop ≤ image.length) (ahead : c.runs image = (counts, cut))
    (timed : c.ticks = RunCursor.tickOf c.rate s.ticksPerSecond c.samples) :
    ∃ c', (Phase.runs c).Sounds s image (runPulses s c.rate c.samples counts) (.runs c') ∧
      c'.pauseMs = c.pauseMs ∧
      c'.next image s.ticksPerSecond = if cut then .error .cutShort else .ok none := by
  induction counts generalizing c with
  | nil =>
    rcases c.next_runs whole fits s.ticksPerSecond with
      ⟨none, next⟩ | ⟨short, next⟩ | ⟨count, c', first, -⟩
    · obtain ⟨-, rfl⟩ := Prod.mk.inj (ahead.symm.trans none)
      exact ⟨c, .here, rfl, next⟩
    · obtain ⟨-, rfl⟩ := Prod.mk.inj (ahead.symm.trans short)
      exact ⟨c, .here, rfl, next⟩
    · exact nomatch ahead.symm.trans first
  | cons count counts ih =>
    rcases c.next_runs whole fits s.ticksPerSecond with
      ⟨none, -⟩ | ⟨short, -⟩ | ⟨count', c', first, next, data, rate, pause, samples, ticks⟩
    · exact nomatch ahead.symm.trans none
    · exact nomatch ahead.symm.trans short
    · obtain ⟨counts_eq, cut_eq⟩ := Prod.mk.inj (ahead.symm.trans first)
      obtain ⟨rfl, rest⟩ := List.cons.inj counts_eq
      obtain ⟨c'', sounds, pause', ended⟩ :=
        ih (c := c') (data ▸ fits) (Prod.ext rest.symm cut_eq.symm) (by rw [ticks, rate, samples])
      refine ⟨c'', ?_, pause'.trans pause, ended⟩
      rw [rate, samples] at sounds
      rw [timed] at next
      refine .next ?_ sounds
      simp only [Phase.next, next]
      rfl

theorem Phase.silence_sounds (whole : image.Whole) {phase : Phase} {ticks : Nat}
    (next : phase.next s image = (Phase.pause ticks).next s image) :
    ∃ phase', phase.Sounds s image (silence ticks) phase' ∧ phase'.next s image = .ok none := by
  have gives : (Phase.pause ticks).Gives s image := gives_pause ticks
  rcases gives with ⟨none, ended⟩ | ⟨i, rest, first, starts, ready, -⟩
  · exact ⟨phase, by rw [show silence ticks = [] from none]; exact .here, next.trans ended⟩
  · obtain ⟨phase', sounds, ended⟩ := Phase.Ready.sounds (s := s) whole ready
    refine ⟨phase', ?_, ended⟩
    rw [show silence ticks = i :: rest.intervals s image from first]
    exact .next (next.trans starts) sounds

section Packed

variable {data : Tzx.Span} {counts : List Nat} {cut : Bool} (whole : image.Whole)
  (fits : data.stop ≤ image.length)
include whole fits

/-- Packed samples sound as all their runs from the beginning on. -/
theorem Phase.packed_sounds (packed : runsOf (image.slice data.offset data.length).toList =
      (counts, cut)) (rate : Nat) (pauseMs : UInt16) :
    ∃ c, (Phase.runs (.new data rate pauseMs)).Sounds s image (runPulses s rate 0 counts)
        (.runs c) ∧ c.pauseMs = pauseMs ∧
      c.next image s.ticksPerSecond = if cut then .error .cutShort else .ok none := by
  have start : 0 = RunCursor.tickOf rate s.ticksPerSecond 0 := by simp [RunCursor.tickOf]
  exact runs_sound whole fits ((RunCursor.runs_new whole fits pauseMs).trans packed) start

/-- Behind runs of which none is cut short the pause sounds, and then it is over. -/
theorem Phase.packed_ends (packed : runsOf (image.slice data.offset data.length).toList =
      (counts, false)) (rate : Nat) (pauseMs : UInt16) :
    ∃ phase, (Phase.runs (.new data rate pauseMs)).Sounds s image
        (runPulses s rate 0 counts ++ pauseOf s pauseMs) phase ∧
      phase.next s image = .ok none := by
  obtain ⟨c, sounds, rfl, used⟩ := packed_sounds whole fits packed rate pauseMs (s := s)
  have next : (Phase.runs c).next s image = (Phase.pause (s.ticksOfMs c.pauseMs)).next s image := by
    simp only [Phase.next, used]
    rfl
  obtain ⟨phase, silent, ended⟩ := silence_sounds whole next
  exact ⟨phase, sounds.trans silent, ended⟩

end Packed

theorem Entry.ofBlock_packed {offset size : Nat} {pauseMs : UInt16} {stored : UInt32}
    {data : Tzx.Span} (sampled : 0 < rate) :
    Entry.ofBlock s image (.tzx ⟨offset, size, .csw pauseMs rate .runLength stored data⟩) =
      .ok (.signal (.runs (.new data rate pauseMs))) := by
  simp [Entry.ofBlock, Entry.ofKind, Nat.ne_of_gt sampled]

end Signal

/-! ### Playing packed samples -/

namespace Player

variable {t : Tape} {x : Index} {s : Settings} {p₀ p : Player} {os : List Nat}
variable {l : List (Bool × Nat)} {n ordinal offset size rate : Nat} {pauseMs : UInt16}
variable {stored : UInt32} {data : Tzx.Span} {counts : List Nat} {cut : Bool}

/-- The payload of a packed recording has fewer than 2³² bytes, all of them inside the image. -/
theorem packed_fits (h : Indexed t x) {compression : Tzx.Compression}
    (found : t.scan.blocks[ordinal]? =
      some (.tzx ⟨offset, size, .csw pauseMs rate compression stored data⟩)) :
    data.length < 2 ^ 32 ∧ data.stop ≤ t.image.length := by
  obtain ⟨o, read⟩ := h.read_of_mem (Array.mem_toList_iff.2 (Array.mem_of_getElem? found))
  refine ⟨?_, Tape.payload_fits h.whole read data rfl⟩
  cases format : t.format with
  | tap =>
    obtain ⟨_, -, same⟩ := (Tape.blockAt?_tap format).1 read
    cases same
  | tzx =>
    obtain ⟨c, read, is⟩ := (Tape.blockAt?_tzx format).1 read
    obtain ⟨tag, -, -, -, same⟩ := (Tzx.blockAt?_eq_ok_some_iff h.whole).1 read
    have kind := congrArg Tzx.Block.kind ((Block.tzx.inj is).trans same)
    cases tag with
    | csw =>
      simp only [Tzx.describe, Tzx.kindAt, Tzx.Kind.csw.injEq] at kind
      have below : t.image.number (o + 1) 4 < 2 ^ 32 := Image.number_lt
      rw [kind.2.2.2.2]
      exact Nat.lt_of_le_of_lt (Nat.sub_le _ 10) below
    | _ => cases kind

/-- Not even the longest payload lasts more samples than a word of 64 bits can count. -/
theorem packed_sum_lt (h : Indexed t x) {compression : Tzx.Compression}
    (found : t.scan.blocks[ordinal]? =
      some (.tzx ⟨offset, size, .csw pauseMs rate compression stored data⟩))
    (packed : runsOf (t.image.slice data.offset data.length).toList = (counts, cut)) :
    counts.sum < 2 ^ 64 := by
  obtain ⟨short, fits⟩ := packed_fits h found
  have sum := sum_runsOf_le (t.image.slice data.offset data.length).toList
  have length : (t.image.slice data.offset data.length).toList.length = data.length := by
    rw [Image.toList_slice h.whole fits, List.length_map, List.length_range']
  simp only [packed, length] at sum
  omega

/-- Packed samples are entered behind whatever else has been played in the walk. Each run is a
pulse that ends at the tick of all samples so far, rounded down, so that nothing is lost; then the
pause follows and the next block is reached. A run that is cut short is reported behind the pulses
of all runs before it. -/
theorem unpacks (h : Indexed t x) (underway : p₀.Underway t x s) (playing : p₀.playing = true)
    (before : p₀.Course t x walkLimit os l (n + 1) p) (reaches : p.Reaches t ordinal)
    (found : t.scan.blocks[ordinal]? =
      some (.tzx ⟨offset, size, .csw pauseMs rate .runLength stored data⟩))
    (sampled : 0 < rate)
    (packed : runsOf (t.image.slice data.offset data.length).toList = (counts, cut)) :
    counts.sum < 2 ^ 64 ∧ ∃ ws : List Nat, ws.length = counts.length ∧
      (∀ k, (ws.take k).sum =
        min ((counts.take k).sum * s.ticksPerSecond / rate) (2 ^ 64 - 1)) ∧
      if cut then
        let l' := l ++ heard p.level ((ws.map pulse).map .start)
        (∃ q m, p₀.Performs t x (os ++ [ordinal]) l' m q) ∧
        ∀ left, ∃ q, p₀.Elapses t x (p₀.remaining + lasting l' + left) q (.error .cutShort) ∧
          q.ordinal = ordinal ∧ q.playing = false
      else
        let l' := l ++ heard p.level ((ws.map pulse ++
          silence (pauseMs.toNat * s.ticksPerSecond / 1000)).map .start)
        ∃ q m, p₀.Performs t x (os ++ [ordinal]) l' m q ∧ q.Reaches t (ordinal + 1) := by
  have routed := before.routed h (underway.routed h)
  obtain ⟨-, fits⟩ := packed_fits h found
  refine ⟨packed_sum_lt h found packed, widths rate s.ticksPerSecond 0 counts,
    length_widths 0 counts, fun k => ?_, ?_⟩
  · have total : RunCursor.tickOf rate s.ticksPerSecond 0 +
        ((widths rate s.ticksPerSecond 0 counts).take k).sum =
          RunCursor.tickOf rate s.ticksPerSecond (0 + (counts.take k).sum) := sum_widths 0 counts k
    simpa [RunCursor.tickOf, lastTick, UInt64.size] using total
  cases cut with
  | true =>
    obtain ⟨c, sounds, -, short⟩ := Phase.packed_sounds (s := s) h.whole fits packed rate pauseMs
    obtain ⟨q, m, course, -, still, set, here, phase, -⟩ :=
      reaches.sounds h routed found (Entry.ofBlock_packed sampled) sounds n
    have performs := (before.trans course).performs playing
    have failed : q.phase.next q.settings t.image = .error .cutShort := by
      rw [phase, set]
      simp only [Phase.next, short]
      rfl
    exact ⟨⟨q, m, performs⟩, fun left => ⟨_, performs.fault still failed left, here, rfl⟩⟩
  | false =>
    obtain ⟨phase', sounds, ended⟩ := Phase.packed_ends (s := s) h.whole fits packed rate pauseMs
    obtain ⟨q, m, course, -, still, set, here, phase, -⟩ :=
      reaches.sounds h routed found (Entry.ofBlock_packed sampled) sounds n
    refine ⟨q, m, (before.trans course).performs playing, ?_⟩
    rw [← here]
    have under := sounds.ne_idle (by simp)
    exact reaches_next still (phase ▸ under) (by rw [phase, set]; exact ended)

/-- One sample, two and three at 44100 a second, the two in four bytes. In the first block a pause of
a millisecond follows; in the second, which is sought, there is one byte more for a last run. -/
theorem unpacks_cut :
    let t : Tape := ⟨.tzx, .ofBytes (Tzx.magic ++ #[1, 20, 0x18, 17, 0, 0, 0, 1, 0, 0x44, 0xAC, 0,
      1, 3, 0, 0, 0, 1, 0, 2, 0, 0, 0, 3, 0x18, 19, 0, 0, 0, 1, 0, 0x44, 0xAC, 0, 1, 3, 0, 0, 0, 1,
      0, 2, 0, 0, 0, 3, 0, 9]), some (1, 20)⟩
    let x : Index := ⟨#[10], 2⟩
    let p := (new .standard 10).play
    let p' := ((new .standard 10).seek 1 (t.offsetAt 1)).play
    Indexed t x ∧ 0 < 44100 ∧
      (p.Underway t x .standard ∧ p.playing = true ∧
        p.Course t x walkLimit [] [] (0xFFFFF + 1) p ∧ p.Reaches t 0 ∧
        t.scan.blocks[0]? = some (.tzx ⟨10, 21, .csw 1 44100 .runLength 3 ⟨25, 7⟩⟩) ∧
        runsOf (t.image.slice 25 7).toList = ([1, 2, 3], false)) ∧
      (p'.Underway t x .standard ∧ p'.playing = true ∧
        p'.Course t x walkLimit [] [] (0xFFFFF + 1) p' ∧ p'.Reaches t 1 ∧
        t.scan.blocks[1]? = some (.tzx ⟨32, 23, .csw 1 44100 .runLength 3 ⟨47, 9⟩⟩) ∧
        runsOf (t.image.slice 47 9).toList = ([1, 2, 3], true)) ∧
      (∃ q m, p.Performs t x [0] [(true, 79), (false, 159), (true, 238), (false, 3500)] m q ∧
        q.Reaches t 1) ∧
      (∃ q m, p'.Performs t x [1] [(true, 79), (false, 159), (true, 238)] m q) ∧
      ∃ q, p'.Elapses t x 500 q (.error .cutShort) ∧ q.ordinal = 1 := by
  intro t x p p'
  have indexed : Indexed t x := ⟨rfl, by decide +kernel⟩
  have underway : p.Underway t x .standard := .reached (.play .new)
  have underway' : p'.Underway t x .standard := .reached (.play (.seek .new (by decide)))
  have reaches : p.Reaches t 0 := ⟨rfl, rfl, rfl⟩
  have reaches' : p'.Reaches t 1 := ⟨rfl, rfl, rfl⟩
  have found : t.scan.blocks[0]? = some (.tzx ⟨10, 21, .csw 1 44100 .runLength 3 ⟨25, 7⟩⟩) := by
    decide +kernel
  have found' : t.scan.blocks[1]? = some (.tzx ⟨32, 23, .csw 1 44100 .runLength 3 ⟨47, 9⟩⟩) := by
    decide +kernel
  have packed : runsOf (t.image.slice 25 7).toList = ([1, 2, 3], false) := by decide +kernel
  have packed' : runsOf (t.image.slice 47 9).toList = ([1, 2, 3], true) := by decide +kernel
  -- The ends of the pulses leave no choice of their widths.
  have widths {ws : List Nat} (length : ws.length = 3) (ends : ∀ k, (ws.take k).sum =
      min (([1, 2, 3].take k).sum * Settings.standard.ticksPerSecond / 44100) (2 ^ 64 - 1)) :
      ws = [79, 159, 238] := by
    match ws, length with
    | [a, b, c], _ =>
      have first := ends 1
      have second := ends 2
      have third := ends 3
      simp [Settings.ticksPerSecond, Settings.standard, Model.ticksPerSecond] at first second third
      simp only [List.cons.injEq, and_true]
      omega
  obtain ⟨-, ws, length, ends, q, m, performs, next⟩ :=
    unpacks indexed underway rfl .here reaches found (by decide) packed
  obtain ⟨-, ws', length', ends', performs', fails⟩ :=
    unpacks indexed underway' rfl .here reaches' found' (by decide) packed'
  obtain rfl := widths length ends
  obtain rfl := widths length' ends'
  obtain ⟨r, elapses, here, -⟩ := fails 24
  exact ⟨indexed, by decide, ⟨underway, rfl, .here, reaches, found, packed⟩,
    ⟨underway', rfl, .here, reaches', found', packed'⟩, ⟨q, m, performs, next⟩, performs', r,
    elapses, here⟩

end Player

end Cassette
