import Cassette.Proofs.Appending
import Cassette.Proofs.Layout
import Cassette.Proofs.Scanning
import Mathlib.Data.List.Forall2

/-! Writing and reading TAP images. A flag and data are framed as a payload that their checksum
closes, and what is read where a frame stands has just these for its fields (`block_carries`);
a payload laid out like a header is taken for one, and the header is written as the same bytes.
The other way round, the payloads of the blocks of any image are framed as that image
(`Row.frames`). Main statement: `frames_inverse`. -/

namespace Cassette

/-! ### Payloads -/

namespace Tap

/-- The longest data that leave a payload room for its flag and checksum. -/
def dataLimit : Nat := 65533

def headerSize : Nat := 17

variable {image : Image} {offset : Nat} {flag : UInt8} {data : Bytes}

theorem size_assemble (flag : UInt8) (data : Bytes) :
    (assemble flag data).size = data.size + 2 := by
  simp only [assemble, Array.size_append, List.size_toArray, List.length_singleton]
  omega

/-- With its checksum a payload adds up to nothing. -/
theorem xor_assemble (flag : UInt8) (data : Bytes) :
    (assemble flag data).toList.foldl (· ^^^ ·) 0 = 0 := by
  simp [assemble, checksum]

theorem frames_assemble_ok_iff {written : List (UInt8 × Bytes)} :
    (frames (written.map fun p => assemble p.1 p.2)).2 = .ok () ↔
      ∀ p ∈ written, p.2.size ≤ dataLimit := by
  rw [frames_ok_iff, List.forall_mem_map]
  refine forall₂_congr fun p _ => ?_
  rw [size_assemble, payloadLimit, dataLimit]
  omega

theorem frameData_long (long : dataLimit < data.size) :
    frameData flag data = .error .blockTooLong := by
  rw [dataLimit] at long
  rw [frameData, frame, size_assemble, payloadLimit, if_neg (by omega)]

/-! ### Blocks -/

def Block.payloadIn (image : Image) (b : Block) : Bytes := image.slice b.payloadStart b.length.toNat

/-- A block has a flag and data for its payload, and the exclusive or of these behind them. It has a
header just if the data are as long as one behind flag zero, and that is written as just these
data. -/
structure Block.Carries (image : Image) (flag : UInt8) (data : Bytes) (b : Block) : Prop where
  length : b.length.toNat = data.size + 2
  flagged : b.flag = some flag
  payload : b.payloadIn image = #[flag] ++ data ++ #[data.toList.foldl (· ^^^ ·) flag]
  sum : (b.payloadIn image).toList.foldl (· ^^^ ·) 0 = 0
  header : b.header.isSome ↔ flag = 0 ∧ data.size = headerSize
  parsed : ∀ h, b.header = some h → h.toBytes.toArray = data ∧ h.payload flag = b.payloadIn image

theorem toBytes_headerAt (whole : image.Whole) (inside : offset + headerSize ≤ image.length) :
    (headerAt image offset).toBytes.toArray = image.slice offset headerSize := by
  rw [headerAt, Header.toBytes_ofBytes]
  apply Array.toList_inj.1
  rw [Image.toList_slice whole inside, Vector.toArray_ofFn, Array.toList_ofFn]
  rfl

/-- Flag and data stand behind the length word of a block whose payload they are. -/
theorem stands_of_slice (whole : image.Whole) {n : Nat} (inside : offset + n ≤ image.length)
    (shown : image.slice offset n = assemble flag data) :
    n = data.size + 2 ∧ image.byte offset = flag ∧
      image.slice (offset + 1) data.size = data := by
  have size : n = data.size + 2 := by
    rw [← size_assemble flag, ← shown, Image.size_slice whole inside]
  have fits : offset + (assemble flag data).size ≤ image.bytes.size := by
    rw [size_assemble, ← size, ← show image.length = image.bytes.size from whole]
    exact inside
  have stands : image.Stands offset (assemble flag data).toList := by
    apply Image.stands_bytes.2 ⟨fits, ?_⟩
    rw [size_assemble, ← size, shown]
  rw [show (assemble flag data).toList = flag :: (data.toList ++ [checksum flag data.toList]) by
    simp [assemble]] at stands
  obtain ⟨⟨-, first⟩, stands⟩ := Image.stands_cons.1 stands
  exact ⟨size, first, (Image.stands_bytes.1 (Image.stands_append.1 stands).1).2⟩

/-- A block whose payload was made of a flag and data carries these. -/
theorem block_carries (whole : image.Whole) {b : Block}
    (read : blockAt? image offset = .ok (some b))
    (shown : b.payloadIn image = assemble flag data) : b.Carries image flag data := by
  obtain ⟨fits, rfl⟩ := (blockAt?_eq_ok_some_iff whole).1 read
  have inside : offset + 2 + (image.word offset).toNat ≤ image.length := by
    rw [Nat.add_assoc]
    exact fits
  obtain ⟨length, first, there⟩ := stands_of_slice whole inside shown
  have some : image.word offset ≠ 0 := by
    intro zero
    rw [zero] at length
    exact absurd length (by simp)
  have nineteen : image.word offset = headerLength ↔ data.size = headerSize := by
    rw [← UInt16.toNat_inj, length, show headerLength.toNat = headerSize + 2 from rfl]
    omega
  have headed : (describe image offset).header =
      if data.size = headerSize ∧ flag = 0 then .some (headerAt image (offset + 3)) else none := by
    simp only [describe, nineteen, first]
  refine ⟨length, ?_, shown, ?_, ?_, fun h parsed => ?_⟩
  · show (if image.word offset = 0 then none else .some (image.byte (offset + 2))) = .some flag
    rw [if_neg some, first]
  · rw [shown, xor_assemble]
  · rw [headed, Option.isSome_ite, and_comm]
  · rw [headed] at parsed
    split at parsed
    · next header =>
      obtain rfl := Option.some.inj parsed
      have bytes : (headerAt image (offset + 3)).toBytes.toArray = data := by
        rw [toBytes_headerAt whole (by rw [← header.1]; omega), ← header.1]
        exact there
      refine ⟨bytes, ?_⟩
      rw [shown, Header.payload, bytes, Vector.toList, bytes, assemble]
    · cases parsed

end Tap

/-! ### Rows of blocks -/

namespace Tape

variable {t : Tape} {head stop : Nat} {bs : List Block} {written : List (UInt8 × Bytes)}

theorem Row.tap (row : t.Row head bs stop) (tap : t.format = .tap) :
    ∃ cs : List Tap.Block, bs = cs.map .tap := by
  induction row with
  | nil => exact ⟨[], rfl⟩
  | cons read _ ih =>
    obtain ⟨c, -, rfl⟩ := (blockAt?_tap tap).1 read
    obtain ⟨cs, rfl⟩ := ih
    exact ⟨c :: cs, rfl⟩

theorem Row.carries {cs : List Tap.Block} (row : t.Row head (cs.map .tap) stop)
    (whole : t.image.Whole) (tap : t.format = .tap)
    (shown : cs.map (Tap.Block.payloadIn t.image) =
      written.map fun p => Tap.assemble p.1 p.2) :
    List.Forall₂ (fun p c => c.Carries t.image p.1 p.2) written cs := by
  induction cs generalizing head written with
  | nil =>
    obtain rfl : written = [] := by simpa using shown.symm
    exact .nil
  | cons c cs ih =>
    cases row with
    | cons read rest =>
      cases written with
      | nil => cases shown
      | cons p written =>
        obtain ⟨first, others⟩ := List.cons.inj shown
        obtain ⟨c', described, same⟩ := (blockAt?_tap tap).1 read
        obtain rfl := Block.tap.inj same
        exact .cons (Tap.block_carries whole described first) (ih rest others)

/-- Framed one behind the other, the payloads of blocks in a row are the bytes of the row. -/
theorem Row.frames {cs : List Tap.Block} (row : t.Row head (cs.map .tap) stop)
    (whole : t.image.Whole) (tap : t.format = .tap) :
    Tap.frames (cs.map (Tap.Block.payloadIn t.image)) =
      (t.image.bytes.extract head stop, .ok ()) := by
  induction cs generalizing head with
  | nil =>
    cases row
    rw [List.map_nil, Tap.frames, Array.extract_empty_of_stop_le_start (Nat.le_refl _)]
  | cons c cs ih =>
    cases row with
    | cons read rest =>
      have framed : Tap.frame (c.payloadIn t.image) = .ok (t.image.slice head (Block.tap c).size) :=
        frame_payload whole tap read rfl
      have le := rest.le
      rw [List.map_cons, Tap.frames, framed, ih rest]
      show (t.image.slice head (Block.tap c).size ++ _, _) = _
      rw [Image.slice, Array.extract_append_extract, Nat.min_eq_left (Nat.le_add_right _ _),
        Nat.max_eq_right le]

end Tape

open Tape Tap

/-- Flags and data that are written in order, none of them too long, are read back as one block
for each, without gaps and with just these fields; data that are too long end the writing, and
nothing of them is written. And any image that can be read to its end is what comes of writing
the payloads of its blocks in order. -/
theorem frames_inverse :
    (∀ written : List (UInt8 × Bytes), (∀ p ∈ written, p.2.size ≤ dataLimit) →
      ∃ bytes, ∃ cs : List Tap.Block,
        frames (written.map fun p => assemble p.1 p.2) = (bytes, .ok ()) ∧
        scan ⟨.tap, .ofBytes bytes, none⟩ = ⟨(cs.map Block.tap).toArray, bytes.size, none⟩ ∧
        Block.Tile 0 (cs.map .tap) bytes.size ∧
        List.Forall₂ (fun p c => c.Carries (.ofBytes bytes) p.1 p.2) written cs ∧
        ∀ flag data rest, dataLimit < data.size → frameData flag data = .error .blockTooLong ∧
          frames ((written.map fun p => assemble p.1 p.2) ++ assemble flag data :: rest) =
            (bytes, .error .blockTooLong)) ∧
    ∀ bytes : Bytes, (scan ⟨.tap, .ofBytes bytes, none⟩).fault = none →
      ∃ cs : List Tap.Block, (scan ⟨.tap, .ofBytes bytes, none⟩).blocks.toList = cs.map Block.tap ∧
        frames (cs.map (Tap.Block.payloadIn (.ofBytes bytes))) = (bytes, .ok ()) := by
  constructor
  · intro written short
    obtain ⟨bytes, framed⟩ : ∃ bytes, frames (written.map fun p => assemble p.1 p.2) =
        (bytes, .ok ()) := ⟨_, Prod.ext rfl (frames_assemble_ok_iff.2 short)⟩
    let t : Tape := ⟨.tap, .ofBytes bytes, none⟩
    have whole : t.image.Whole := Image.whole_ofBytes bytes
    have copied : t.image.bytes = #[] ++ bytes := Array.empty_append.symm
    obtain ⟨bs, row, payloads⟩ := row_of_frames whole rfl framed copied
    rw [show (#[] : Bytes).size = 0 from rfl, Nat.zero_add] at row
    obtain ⟨cs, rfl⟩ := row.tap rfl
    have shown : cs.map (Tap.Block.payloadIn t.image) = written.map fun p => assemble p.1 p.2 := by
      apply (List.map_inj_right fun _ _ => Option.some.inj).1
      rw [← payloads, List.map_map, List.map_map]
      rfl
    refine ⟨bytes, cs, framed, ?_, row.tile whole, row.carries whole rfl shown,
      fun flag data rest long => ?_⟩
    · have scanned := row.scanFrom (show bytes.size = t.length from rfl) #[]
      rwa [Array.empty_append] at scanned
    · have none : frameData flag data = .error .blockTooLong := frameData_long long
      refine ⟨none, ?_⟩
      have stops : frames (assemble flag data :: rest) = (#[], .error .blockTooLong) := by
        rw [frames, show frame (assemble flag data) = _ from none]
      rw [frames_append framed stops, Array.append_empty]
  · intro bytes sound
    let t : Tape := ⟨.tap, .ofBytes bytes, none⟩
    have whole : t.image.Whole := Image.whole_ofBytes bytes
    obtain ⟨bs, row, blocks⟩ := row_of_scanFrom whole (Nat.zero_le _) #[] sound
    obtain ⟨cs, rfl⟩ := row.tap rfl
    have framed := row.frames whole rfl
    refine ⟨cs, ?_, ?_⟩
    · rw [scan, scanAt]
      exact (congrArg Array.toList blocks).trans (by simp)
    · rw [framed]
      simp [t, length, Image.ofBytes]

/-- A header of blanks with nothing but a flag behind it, and an empty payload in front of one
of a byte. -/
theorem frames_inverse_header :
    let blanks : Bytes := .replicate 17 0x20
    let written : Bytes := #[19, 0, 0] ++ blanks ++ #[0x20, 2, 0, 0xFF, 0xFF]
    let bytes : Bytes := #[0, 0, 1, 0, 7]
    (∃ b c : Tap.Block, frames [assemble 0 blanks, assemble 0xFF #[]] = (written, .ok ()) ∧
        (scan ⟨.tap, .ofBytes written, none⟩).blocks = #[.tap b, .tap c] ∧
        b.Carries (.ofBytes written) 0 blanks ∧ c.Carries (.ofBytes written) 0xFF #[]) ∧
      ∃ b c : Tap.Block, frames [b.payloadIn (.ofBytes bytes), c.payloadIn (.ofBytes bytes)] =
        (bytes, .ok ()) := by
  intro blanks written bytes
  have short : ∀ p ∈ [((0 : UInt8), blanks), (0xFF, #[])], p.2.size ≤ dataLimit := by decide
  have read : scan ⟨.tap, .ofBytes bytes, none⟩ =
      ⟨#[.tap ⟨0, 0, none, none⟩, .tap ⟨2, 1, some 7, none⟩], 5, none⟩ := by decide +kernel
  have framed : frames [assemble 0 blanks, assemble 0xFF #[]] = (written, .ok ()) := by
    decide +kernel
  obtain ⟨written', cs, framed', scanned, -, carries, -⟩ := frames_inverse.1 _ short
  obtain ⟨rfl, -⟩ := Prod.mk.inj (framed.symm.trans framed')
  obtain ⟨cs', blocks, again⟩ := frames_inverse.2 bytes (by rw [read])
  refine ⟨?_, ?_⟩
  · cases carries with
    | cons first rest =>
      cases rest with
      | cons second none =>
        cases none
        refine ⟨_, _, framed, ?_, first, second⟩
        rw [scanned, List.map_cons, List.map_cons, List.map_nil]
  · have two : cs'.length = 2 := by
      rw [← List.length_map Block.tap, ← blocks, read]
      rfl
    obtain ⟨b, c, rfl⟩ := List.length_eq_two.1 two
    exact ⟨b, c, again⟩

end Cassette
