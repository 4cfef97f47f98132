import Cassette.Edit
import Cassette.Proofs.Row

/-! A file that has grown since it was opened. What stands behind the measured length is never
read: every reader checks that length first (`Image.fetch_congr`), so a tape on a grown file
reads as on the file as it was, block by block (`blockAt?_measured`), in a scan, through an
index, and when it is copied. -/

namespace Cassette

namespace Image

variable {α : Type} {image : Image} {offset count width : Nat} {what : String}

def Covered (image : Image) : Prop := image.length ≤ image.bytes.size

theorem Whole.covered (whole : image.Whole) : image.Covered := Nat.le_of_eq whole

/-- The image without what has been added to the file since it was measured. -/
def measured (image : Image) : Image := .ofBytes (image.bytes.extract 0 image.length)

theorem Whole.measured (whole : image.Whole) : image.measured = image := by
  rw [Image.measured, show image.length = image.bytes.size from whole, Array.extract_size, ofBytes,
    ← show image.length = image.bytes.size from whole]

variable (covered : image.Covered)
include covered

theorem measured_length : image.measured.length = image.length := by
  have : image.length ≤ image.bytes.size := covered
  simp only [measured, ofBytes, Array.size_extract]
  omega

theorem same_measured : Same image 0 image.measured 0 image.length := by
  have size : image.length ≤ image.bytes.size := covered
  refine ⟨by omega, ?_, fun k inside => ?_⟩
  · simp only [measured, ofBytes, Array.size_extract]
    omega
  · simp only [byte, measured, ofBytes, Array.getD_eq_getD_getElem?, Array.getElem?_extract]
    rw [if_pos (by omega), Nat.zero_add, Nat.zero_add]

theorem byte_measured (inside : offset + 1 ≤ image.length) :
    image.measured.byte offset = image.byte offset := by
  have same := (same_measured covered).byte offset (by omega)
  rwa [Nat.zero_add] at same

theorem number_measured (inside : offset + width ≤ image.length) :
    image.measured.number offset width = image.number offset width := by
  have same := (same_measured covered).number_add inside
  rwa [Nat.zero_add] at same

theorem word_measured (inside : offset + 2 ≤ image.length) :
    image.measured.word offset = image.word offset := by
  rw [word, word, number_measured covered inside]

theorem words_measured (inside : offset + 2 * count ≤ image.length) :
    image.measured.words offset count = image.words offset count := by
  have same := (same_measured covered).words_add inside
  rwa [Nat.zero_add] at same

theorem slice_measured (inside : offset + count ≤ image.length) :
    image.measured.slice offset count = image.slice offset count := by
  have same := (same_measured covered).slice_add inside
  rwa [Nat.zero_add] at same

/-! ### Checks -/

theorem claim_measured :
    image.measured.claim offset count what = image.claim offset count what := by
  rw [claim, claim, measured_length covered]

/-- What follows a check has to agree only where the check passes. -/
theorem claim_congr {f g : Unit → Except ReadFault α}
    (same : offset + count ≤ image.length → f () = g ()) :
    (image.measured.claim offset count what >>= f) = (image.claim offset count what >>= g) := by
  rw [claim_measured covered, claim]
  split
  · next inside => exact same inside
  · rfl

theorem reach_measured (inside : offset + count ≤ image.length) :
    image.measured.reach offset count = .ok () ∧ image.reach offset count = .ok () := by
  have size : image.length ≤ image.bytes.size := covered
  have there := (same_measured covered).right
  constructor
  · rw [reach, if_pos (.inr (by omega))]
  · rw [reach, if_pos (.inr (by omega))]

theorem reach_congr {f g : Unit → Except ReadFault α} (inside : offset + count ≤ image.length)
    (same : f () = g ()) :
    (image.measured.reach offset count >>= f) = (image.reach offset count >>= g) := by
  obtain ⟨left, right⟩ := reach_measured covered inside
  rw [left, right]
  exact same

theorem fetch_congr {f g : Unit → Except ReadFault α}
    (same : offset + count ≤ image.length → f () = g ()) :
    (image.measured.fetch offset count what >>= f) = (image.fetch offset count what >>= g) := by
  rw [fetch, fetch, bind_assoc, bind_assoc]
  exact claim_congr covered fun inside => reach_congr covered inside (same inside)

theorem excerpt_measured : image.measured.excerpt offset count = image.excerpt offset count := by
  have size : image.length ≤ image.bytes.size := covered
  have there : image.measured.bytes.size = image.length := measured_length covered
  rw [excerpt, excerpt, measured_length covered, there]
  by_cases short : image.length < offset + count
  · rw [if_pos short, if_pos short]
  · rw [if_neg short, if_neg short, if_pos (by omega), if_pos (by omega),
      slice_measured covered (by omega)]

end Image

/-! ### Blocks -/

open Image

section Reading

variable {α : Type} {image : Image} {offset length : Nat} {what : String}
  (covered : image.Covered)
include covered

theorem Tap.blockAt?_measured : Tap.blockAt? image.measured offset = Tap.blockAt? image offset := by
  simp only [blockAt?, measured_length covered]
  by_cases ended : image.length ≤ offset
  · rw [if_pos ended, if_pos ended]
  · rw [if_neg ended, if_neg ended]
    refine fetch_congr covered fun two => ?_
    rw [word_measured covered two]
    refine claim_congr covered fun payload => ?_
    by_cases empty : image.word offset = 0
    · rw [if_pos empty, if_pos empty]
    · have long : 0 < (image.word offset).toNat :=
        Nat.pos_of_ne_zero fun h => empty (UInt16.toNat_inj.1 h)
      rw [if_neg empty, if_neg empty]
      refine reach_congr covered (by omega) ?_
      rw [byte_measured covered (by omega)]
      by_cases header : image.word offset = headerLength ∧ image.byte (offset + 2) = 0
      · have nineteen : (image.word offset).toNat = 19 := by rw [header.1]; rfl
        have fields : headerAt image.measured (offset + 3) = headerAt image (offset + 3) := by
          simp only [headerAt]
          congr 2
          funext i
          exact byte_measured covered (by omega)
        rw [if_pos header, if_pos header]
        refine reach_congr covered (by omega) ?_
        rw [fields]
      · rw [if_neg header, if_neg header]

namespace Tzx

theorem payloadAt_congr {f g : Span → Except ReadFault α}
    (same : offset + length ≤ image.length → f ⟨offset, length⟩ = g ⟨offset, length⟩) :
    (payloadAt image.measured offset length what >>= f) =
      (payloadAt image offset length what >>= g) := by
  rw [payloadAt, payloadAt, bind_assoc, bind_assoc]
  exact claim_congr covered same

theorem measuredText_measured :
    measuredText image.measured offset what = measuredText image offset what := by
  rw [measuredText, measuredText]
  refine fetch_congr covered fun inside => ?_
  rw [byte_measured covered inside]
  refine fetch_congr covered fun text => ?_
  rw [slice_measured covered text]

/-- Every field of a body stands behind a check. -/
theorem readBody_measured (tag : Tag) :
    readBody image.measured offset tag = readBody image offset tag := by
  cases tag
  case standardSpeed =>
    refine fetch_congr covered fun inside => ?_
    simp (disch := omega) only [word_measured covered]
    exact payloadAt_congr covered fun _ => rfl
  case turboSpeed =>
    refine fetch_congr covered fun inside => ?_
    simp (disch := omega) only [word_measured covered, byte_measured covered,
      number_measured covered]
    exact payloadAt_congr covered fun _ => rfl
  case pureTone =>
    refine fetch_congr covered fun inside => ?_
    simp (disch := omega) only [word_measured covered]
  case pulseSequence =>
    refine fetch_congr covered fun inside => ?_
    simp (disch := omega) only [byte_measured covered]
    refine fetch_congr covered fun widths => ?_
    rw [words_measured covered widths]
  case pureData =>
    refine fetch_congr covered fun inside => ?_
    simp (disch := omega) only [word_measured covered, byte_measured covered,
      number_measured covered]
    exact payloadAt_congr covered fun _ => rfl
  case directRecording =>
    refine fetch_congr covered fun inside => ?_
    simp (disch := omega) only [word_measured covered, byte_measured covered,
      number_measured covered]
    exact payloadAt_congr covered fun _ => rfl
  case csw =>
    refine claim_congr covered fun inside => ?_
    refine reach_congr covered (by omega) ?_
    rw [number_measured covered (by omega)]
    by_cases short : image.number offset 4 < 10
    · rw [if_pos short, if_pos short]
    · rw [if_neg short, if_neg short]
      refine reach_congr covered (by omega) ?_
      simp (disch := omega) only [word_measured covered, byte_measured covered,
        number_measured covered]
      exact payloadAt_congr covered fun _ => rfl
  case pause | jump | loopStart =>
    refine fetch_congr covered fun inside => ?_
    simp (disch := omega) only [word_measured covered]
  case groupStart | description =>
    simp only [readBody, measuredText_measured covered]
  case callSequence =>
    refine fetch_congr covered fun inside => ?_
    simp (disch := omega) only [word_measured covered]
    refine fetch_congr covered fun targets => ?_
    rw [words_measured covered targets]
  case select | archive =>
    refine fetch_congr covered fun inside => ?_
    simp (disch := omega) only [word_measured covered]
    exact claim_congr covered fun _ => rfl
  case signalLevel =>
    refine claim_congr covered fun inside => ?_
    refine reach_congr covered (by omega) ?_
    simp (disch := omega) only [byte_measured covered]
  case message =>
    refine claim_congr covered fun inside => ?_
    rw [measuredText_measured covered]
  case hardware =>
    refine fetch_congr covered fun inside => ?_
    simp (disch := omega) only [byte_measured covered]
    exact claim_congr covered fun _ => rfl
  case custom =>
    refine claim_congr covered fun inside => ?_
    refine reach_congr covered (by omega) ?_
    rw [number_measured covered (by omega)]
    exact claim_congr covered fun _ => rfl
  case stopIf48K | glue => exact claim_congr covered fun _ => rfl
  case groupEnd | loopEnd | callReturn => rfl

theorem blockAt?_measured : blockAt? image.measured offset = blockAt? image offset := by
  simp only [blockAt?, measured_length covered]
  by_cases ended : image.length ≤ offset
  · rw [if_pos ended, if_pos ended]
  · rw [if_neg ended, if_neg ended]
    refine reach_congr covered (by omega) ?_
    rw [byte_measured covered (by omega)]
    cases Tag.ofByte? (image.byte offset) with
    | none => rfl
    | some tag => simp only [readBody_measured covered tag]

end Tzx

end Reading

/-! ### Tapes -/

namespace Tape

def measured (t : Tape) : Tape := { t with image := t.image.measured }

variable {t : Tape} {x : Index} {ordinal o : Nat} (covered : t.image.Covered)
include covered

theorem length_measured : t.measured.length = t.length := measured_length covered

theorem blockAt?_measured (o : Nat) : t.measured.blockAt? o = t.blockAt? o := by
  have same : t.measured.format = t.format := rfl
  cases format : t.format with
  | tap =>
    simp only [blockAt?, same, format]
    rw [← Tap.blockAt?_measured covered]
    rfl
  | tzx =>
    simp only [blockAt?, same, format]
    rw [← Tzx.blockAt?_measured covered]
    rfl

theorem scanFrom_measured (head : Nat) (found : Array Block) :
    t.measured.scanFrom head found = t.scanFrom head found := by
  fun_induction scanFrom t head found with
  | case1 head found lt fault read =>
    rw [scanFrom, dif_pos (length_measured covered ▸ lt), blockAt?_measured covered, read]
  | case2 head found lt read =>
    rw [scanFrom, dif_pos (length_measured covered ▸ lt), blockAt?_measured covered, read]
  | case3 head found lt b read ih =>
    rw [scanFrom, dif_pos (length_measured covered ▸ lt), blockAt?_measured covered, read]
    exact ih
  | case4 head found ge =>
    rw [scanFrom, dif_neg (length_measured covered ▸ ge)]

theorem scan_measured : t.measured.scan = t.scan := scanFrom_measured covered t.start #[]

theorem ofTape_measured : Index.ofTape t.measured = Index.ofTape t := by
  rw [Index.ofTape, Index.ofTape, scan_measured covered]

theorem skip_measured (count offset : Nat) :
    t.measured.skip count offset = t.skip count offset := by
  induction count generalizing offset with
  | zero => rfl
  | succ count ih => simp only [skip, blockAt?_measured covered, ih]

theorem locate_measured (ordinal : Nat) : x.locate t.measured ordinal = x.locate t ordinal := by
  simp only [Index.locate, skip_measured covered]

theorem find_measured (ordinal : Nat) : x.find t.measured ordinal = x.find t ordinal := by
  simp only [Index.find, locate_measured covered, blockAt?_measured covered]

theorem headerOf_measured (b : Block) : t.measured.headerOf b = t.headerOf b := by
  have same (offset count : Nat) :
      t.measured.image.excerpt offset count = t.image.excerpt offset count :=
    excerpt_measured covered
  cases b with
  | tap b => rfl
  | tzx b => simp only [headerOf, same]

end Tape

/-! ### Copies -/

theorem Copy.range_measured {image : Image} {offset count : Nat} (covered : image.Covered)
    (inside : offset + count ≤ image.length) (c : Copy) :
    c.range image.measured offset count = c.range image offset count := by
  simp only [range, slice_measured covered inside]

theorem Copy.blocks_measured {image : Image} {row : Array Block} (covered : image.Covered)
    (fits : ∀ b ∈ row, b.offset + b.size ≤ image.length) (c : Copy) (order : List Nat) :
    blocks image.measured row c order = blocks image row c order := by
  induction order generalizing c with
  | nil => rfl
  | cons ordinal rest ih =>
    simp only [blocks]
    cases found : row[ordinal]? with
    | none => rfl
    | some b =>
      have inside := fits b (Array.mem_of_getElem? found)
      simp only [range_measured covered inside, ih]

/-- Blocks are copied as if the file had not grown. -/
theorem Tape.splice_measured {t : Tape} {x : Index} (covered : t.image.Covered)
    (h : Indexed t.measured x) (order : List Nat) :
    t.measured.splice x order = t.splice x order := by
  have length : t.image.measured.length = t.image.length := measured_length covered
  have header : 0 + t.start ≤ t.image.length := by
    rw [Nat.zero_add, ← length]
    exact h.start_le
  have fits : ∀ b ∈ t.scan.blocks, b.offset + b.size ≤ t.image.length := by
    intro b member
    rw [← scan_measured covered] at member
    obtain ⟨o, read⟩ := h.read_of_mem (Array.mem_toList_iff.2 member)
    obtain ⟨rfl, inside⟩ := blockAt?_fits h.whole read
    exact Nat.le_trans inside (Nat.le_of_eq length)
  have start : t.measured.start = t.start := rfl
  have image : t.measured.image = t.image.measured := rfl
  simp only [splice, scan_measured covered, start, image, Copy.range_measured covered header,
    Copy.blocks_measured covered fits]

end Cassette
