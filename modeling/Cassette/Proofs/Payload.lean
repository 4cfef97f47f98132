import Cassette.Signal.Payload
import Cassette.Proofs.Reading

/-! Payloads played from inside an image. A cursor that stands inside its payload gives the
bits still ahead of it one by one (`BitCursor.next_cases`), and data gives two pulses for
each of them (`DataCursor.next_cases`); neither ever fails. A recording can fail, but only
where a long run has been cut short (`RunCursor.next_cases`). -/

namespace Cassette.Signal

open Tzx (Span)

variable {image : Image}

/-! ### Bits -/

def usedOf (data : Span) (lastBits i : Nat) : Nat := if i + 1 = data.length then lastBits else 8

def bitsFrom (image : Image) (data : Span) (lastBits start : Nat) : List Bool :=
  (List.range' start (data.length - start)).flatMap fun i =>
    (Bits.bitsOf (image.byte (data.offset + i))).take (usedOf data lastBits i)

theorem bitsFrom_of_le {data : Span} {lastBits start : Nat} (ended : data.length ≤ start) :
    bitsFrom image data lastBits start = [] := by
  rw [bitsFrom, Nat.sub_eq_zero_of_le ended]
  rfl

theorem bitsFrom_of_lt {data : Span} {lastBits start : Nat} (more : start < data.length) :
    bitsFrom image data lastBits start =
      (Bits.bitsOf (image.byte (data.offset + start))).take (usedOf data lastBits start) ++
        bitsFrom image data lastBits (start + 1) := by
  rw [bitsFrom, bitsFrom, show data.length - start = data.length - (start + 1) + 1 by omega]
  rfl

theorem take_bitsOf (b : UInt8) {used : Nat} (some : 0 < used) :
    (Bits.bitsOf b).take used = Bits.bit b 0 :: ((Bits.bitsOf b).take used).drop 1 := by
  obtain ⟨used, rfl⟩ := Nat.exists_eq_add_one_of_ne_zero (Nat.ne_of_gt some)
  rfl

namespace BitCursor

variable {c : BitCursor}

/-- The payload is inside the image, and so is the cursor in the payload. -/
structure Inside (image : Image) (c : BitCursor) : Prop where
  fits : c.data.stop ≤ image.length
  read : c.bytesRead ≤ c.data.length
  used : 0 < c.lastBits

def bits (image : Image) (c : BitCursor) : List Bool :=
  c.pending ++ bitsFrom image c.data c.lastBits c.bytesRead

theorem inside_new {data : Span} (fits : data.stop ≤ image.length) (usedBits : UInt8) :
    (new data usedBits).Inside image where
  fits := fits
  read := Nat.zero_le _
  used := by
    simp only [new]
    split
    · exact Nat.zero_lt_succ 7
    · next counts =>
      exact Nat.pos_of_ne_zero fun h => counts (.inl (UInt8.toNat_inj.1 h))

/-- A cursor inside gives the first of the bits ahead and stands in front of the others. -/
theorem next_cases (whole : image.Whole) (inside : c.Inside image) :
    (c.bits image = [] ∧ c.next image = .ok none) ∨
      ∃ b c', c.bits image = b :: c'.bits image ∧ c.next image = .ok (some (b, c')) ∧
        c'.Inside image ∧ c'.data = c.data := by
  obtain ⟨data, lastBits, bytesRead, pending⟩ := c
  obtain ⟨fits, read, used⟩ := inside
  cases pending with
  | cons b rest =>
    exact .inr ⟨b, ⟨data, lastBits, bytesRead, rest⟩, rfl, rfl, ⟨fits, read, used⟩, rfl⟩
  | nil =>
    simp only at fits read used
    rcases Nat.lt_or_ge bytesRead data.length with more | ended
    · have here : data.offset + bytesRead < image.length := by
        simp only [Span.stop] at fits
        omega
      have counts : 0 < usedOf data lastBits bytesRead := by
        simp only [usedOf]
        split <;> omega
      let byte := image.byte (data.offset + bytesRead)
      let rest := ((Bits.bitsOf byte).take (usedOf data lastBits bytesRead)).drop 1
      refine .inr ⟨Bits.bit byte 0, ⟨data, lastBits, bytesRead + 1, rest⟩, ?_, ?_,
        ⟨fits, more, used⟩, rfl⟩
      · simp only [bits, List.nil_append]
        rw [bitsFrom_of_lt more, take_bitsOf _ counts]
        rfl
      · simp only [next, if_neg (Nat.not_le.2 more), position, Image.byteAt_eq_ok whole here]
        rfl
    · exact .inl ⟨bitsFrom_of_le ended, by simp only [next, if_pos ended]⟩

end BitCursor

/-! ### Pulses -/

namespace DataCursor

variable {c : DataCursor}

def widthOf (zeroPulse onePulse : UInt16) (b : Bool) : UInt16 := if b then onePulse else zeroPulse

def pulsesOf (zeroPulse onePulse : UInt16) (bits : List Bool) : List Nat :=
  bits.flatMap fun b => List.replicate 2 (widthOf zeroPulse onePulse b).toNat

def pulses (image : Image) (c : DataCursor) : List Nat :=
  (c.half.map UInt16.toNat).toList ++ pulsesOf c.zeroPulse c.onePulse (c.bits.bits image)

/-- A cursor inside gives the first of the pulses ahead and stands in front of the others. -/
theorem next_cases (whole : image.Whole) (inside : c.bits.Inside image) :
    (c.pulses image = [] ∧ c.next image = .ok none) ∨
      ∃ width c', c.pulses image = width :: c'.pulses image ∧
        c.next image = .ok (some (width, c')) ∧ c'.bits.Inside image ∧
        c'.bits.data = c.bits.data ∧ c'.pauseMs = c.pauseMs := by
  obtain ⟨bits, zeroPulse, onePulse, half, pauseMs⟩ := c
  cases half with
  | some w =>
    exact .inr ⟨w.toNat, ⟨bits, zeroPulse, onePulse, none, pauseMs⟩, rfl, rfl, inside, rfl, rfl⟩
  | none =>
    rcases bits.next_cases whole inside with ⟨ended, none⟩ | ⟨b, bits', ahead, some, inside', same⟩
    · refine .inl ⟨?_, ?_⟩
      · simp only [pulses, ended]
        rfl
      · simp only [next, none]
        rfl
    · let w := widthOf zeroPulse onePulse b
      refine .inr ⟨w.toNat, ⟨bits', zeroPulse, onePulse, .some w, pauseMs⟩, ?_, ?_, inside', same,
        rfl⟩
      · simp only [pulses, ahead]
        rfl
      · simp only [next, some]
        rfl

end DataCursor

/-! ### Runs -/

/-- Where the runs of a recording start: the first at the front of the payload, the next
behind a short run of one byte or a long one of five. -/
inductive RunStart (image : Image) (data : Span) : Nat → Prop
  | first : RunStart image data 0
  | short {k : Nat} (at_k : RunStart image data k) (more : k < data.length)
      (nonzero : image.byte (data.offset + k) ≠ 0) : RunStart image data (k + 1)
  | long {k : Nat} (at_k : RunStart image data k) (fits : k + 5 ≤ data.length)
      (zero : image.byte (data.offset + k) = 0) : RunStart image data (k + 5)

theorem RunStart.le {data : Span} {k : Nat} (h : RunStart image data k) : k ≤ data.length := by
  cases h with
  | first => exact Nat.zero_le _
  | short _ more _ => exact more
  | long _ fits _ => exact fits

/-- A recording in which a zero byte announces a long run and fewer than four bytes follow. -/
def CutRun (image : Image) (data : Span) : Prop :=
  ∃ k, RunStart image data k ∧ k < data.length ∧ image.byte (data.offset + k) = 0 ∧
    data.length < k + 5

namespace RunCursor

variable {c : RunCursor}

/-- The payload is inside the image, and the cursor stands where a run starts. -/
structure Inside (image : Image) (c : RunCursor) : Prop where
  fits : c.data.stop ≤ image.length
  read : RunStart image c.data c.read

/-- A run says how long it is in one byte or in five, unless it is cut short. -/
theorem nextRun_cases (whole : image.Whole) (inside : c.Inside image)
    (more : c.read < c.data.length) :
    (∃ count size, c.nextRun image = .ok (count, size) ∧
      RunStart image c.data (c.read + size)) ∨
    c.nextRun image = .error .cutShort ∧ CutRun image c.data := by
  obtain ⟨fits, read⟩ := inside
  simp only [Span.stop] at fits
  have here : c.position < image.length := by
    simp only [position]
    omega
  simp only [nextRun, Image.byteAt_eq_ok whole here]
  by_cases zero : image.byte c.position = 0
  · rcases Nat.lt_or_ge c.data.length (c.read + 5) with short | long
    · refine .inr ⟨?_, c.read, read, more, zero, short⟩
      simp [bind, Except.bind, zero, short]
    · have four : c.position + 1 + 4 ≤ image.length := by
        simp only [position]
        omega
      refine .inl ⟨LittleEndian.value (image.slice (c.position + 1) 4).toList, 5, ?_,
        read.long long zero⟩
      simp only [bind, Except.bind, zero, ne_eq, not_true_eq_false, ↓reduceIte,
        if_neg (Nat.not_lt.2 long), Image.excerpt_eq_ok whole four]
      rfl
  · refine .inl ⟨(image.byte c.position).toNat, 1, ?_, read.short more zero⟩
    simp only [bind, Except.bind, ne_eq, zero, not_false_eq_true, ↓reduceIte]
    rfl

def passed (c : RunCursor) (ticksPerSecond count size : Nat) : RunCursor :=
  { c with
    read := c.read + size
    samples := c.samples + count
    ticks := tickOf c.rate ticksPerSecond (c.samples + count) }

/-- A cursor inside gives a run and stands where the next starts, or the run is cut short. -/
theorem next_cases (whole : image.Whole) (inside : c.Inside image) (ticksPerSecond : Nat) :
    c.next image ticksPerSecond = .ok none ∨
      (∃ ticks c', c.next image ticksPerSecond = .ok (some (ticks, c')) ∧ c'.Inside image ∧
        c'.data = c.data) ∨
      c.next image ticksPerSecond = .error .cutShort ∧ CutRun image c.data := by
  rcases Nat.lt_or_ge c.read c.data.length with more | ended
  · simp only [next, if_neg (Nat.not_le.2 more)]
    rcases c.nextRun_cases whole inside more with ⟨count, size, run, start⟩ | ⟨cut, short⟩
    · refine .inr (.inl ⟨tickOf c.rate ticksPerSecond (c.samples + count) - c.ticks,
        c.passed ticksPerSecond count size, ?_, ⟨inside.fits, start⟩, rfl⟩)
      rw [run]
      rfl
    · exact .inr (.inr ⟨by rw [cut]; rfl, short⟩)
  · exact .inl (by simp only [next, if_pos ended])

end RunCursor

end Cassette.Signal
