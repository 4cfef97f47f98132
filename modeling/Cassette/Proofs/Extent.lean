import Cassette.Proofs.Body
import Cassette.Tape

/-! The bytes a block takes up, and nothing else, decide what it is. A block that has been
read lies inside its image and ahead of where reading began (`Tape.blockAt?_fits`), and the
same bytes at another place, in the same or another image, are the same block there
(`Tape.blockAt?_moved`). -/

namespace Cassette

open Image (Same)

/-! ### TAP blocks -/

namespace Tap

variable {image : Image} {offset : Nat}

def describe (image : Image) (offset : Nat) : Block where
  offset := offset
  length := image.word offset
  flag := if image.word offset = 0 then none else some (image.byte (offset + 2))
  header :=
    if image.word offset = headerLength ∧ image.byte (offset + 2) = 0 then
      some (headerAt image (offset + 3))
    else none

theorem blockAt?_of_fits (whole : image.Whole)
    (fits : offset + (describe image offset).size ≤ image.length) :
    blockAt? image offset = .ok (some (describe image offset)) := by
  simp only [describe, Block.size] at fits
  have inside : ¬ image.length ≤ offset := by omega
  simp only [blockAt?, if_neg inside, Image.fetch_bind_ok whole, Image.claim_bind_ok]
  refine ⟨by omega, by omega, ?_⟩
  by_cases empty : image.word offset = 0
  · have short : image.word offset ≠ headerLength := by rw [empty]; decide
    simp only [describe, if_pos empty, short, false_and, ↓reduceIte]
    rfl
  · have long : 0 < (image.word offset).toNat :=
      Nat.pos_of_ne_zero fun h => empty (UInt16.toNat_inj.1 h)
    simp only [if_neg empty, Image.reach_bind_ok whole]
    refine ⟨by omega, ?_⟩
    by_cases header : image.word offset = headerLength ∧ image.byte (offset + 2) = 0
    · have nineteen : (image.word offset).toNat = 19 := by rw [header.1]; rfl
      simp only [if_pos header, Image.reach_bind_ok whole]
      refine ⟨by omega, ?_⟩
      simp only [describe, if_neg empty, if_pos header]
      rfl
    · simp only [describe, if_neg empty, if_neg header]
      rfl

theorem fits_of_blockAt? (whole : image.Whole) {b : Block}
    (h : blockAt? image offset = .ok (some b)) :
    offset + (describe image offset).size ≤ image.length := by
  simp only [blockAt?] at h
  split at h
  · simp at h
  · simp only [Image.fetch_bind_ok whole, Image.claim_bind_ok] at h
    simp only [describe, Block.size]
    omega

/-- A block is read just when all its bytes are there. -/
theorem blockAt?_eq_ok_some_iff (whole : image.Whole) {b : Block} :
    blockAt? image offset = .ok (some b) ↔
      offset + b.size ≤ image.length ∧ b = describe image offset := by
  constructor
  · intro h
    have fits := fits_of_blockAt? whole h
    rw [blockAt?_of_fits whole fits] at h
    obtain rfl := Option.some.inj (Except.ok.inj h)
    exact ⟨fits, rfl⟩
  · rintro ⟨fits, rfl⟩
    exact blockAt?_of_fits whole fits

theorem length_le_of_blockAt?_none (whole : image.Whole)
    (h : blockAt? image offset = .ok none) : image.length ≤ offset := by
  simp only [blockAt?] at h
  split at h
  · assumption
  · simp only [Image.fetch_bind_ok whole, Image.claim_bind_ok] at h
    obtain ⟨-, -, h⟩ := h
    split at h
    · simp [pure, Except.pure] at h
    · simp only [Image.reach_bind_ok whole] at h
      obtain ⟨-, h⟩ := h
      split at h
      · simp [Image.reach_bind_ok whole, pure, Except.pure] at h
      · simp [pure, Except.pure] at h

/-- The same bytes elsewhere are the same block there. -/
theorem describe_moved {a b : Image} {i j : Nat} (s : Same a i b j (describe a i).size) :
    describe b j = { describe a i with offset := j } := by
  simp only [describe, Block.size] at s
  have word := s.word (by omega)
  simp only [describe, word, Block.mk.injEq, true_and]
  by_cases empty : a.word i = 0
  · have short : a.word i ≠ headerLength := by rw [empty]; decide
    simp only [if_pos empty, short, false_and, ↓reduceIte, and_self]
  · have long : 0 < (a.word i).toNat :=
      Nat.pos_of_ne_zero fun h => empty (UInt16.toNat_inj.1 h)
    rw [s.byte 2 (by omega)]
    refine ⟨rfl, ?_⟩
    split
    · next header =>
      have nineteen : (a.word i).toNat = 19 := by rw [header.1]; rfl
      have fields : (fun k : Fin 17 => b.byte (j + 3 + k.val)) =
          fun k => a.byte (i + 3 + k.val) := by
        funext k
        have same := s.byte (3 + k.val) (by omega)
        rwa [← Nat.add_assoc, ← Nat.add_assoc] at same
      simp only [headerAt, fields]
    · rfl

end Tap

/-! ### TZX blocks -/

namespace Tzx

variable {image : Image} {offset : Nat}

def describe (image : Image) (offset : Nat) (tag : Tag) : Block :=
  ⟨offset, bodySize image (offset + 1) tag, kindAt image (offset + 1) tag⟩

theorem describe_size (tag : Tag) :
    (describe image offset tag).size = 1 + bodySize image (offset + 1) tag := rfl

/-- A block is read just when its id is known and all its bytes are there. -/
theorem blockAt?_eq_ok_some_iff (whole : image.Whole) {b : Block} :
    blockAt? image offset = .ok (some b) ↔
      ∃ tag, Tag.ofByte? (image.byte offset) = some tag ∧ lengthCovers image (offset + 1) tag ∧
        offset + b.size ≤ image.length ∧ b = describe image offset tag := by
  constructor
  · intro h
    simp only [blockAt?] at h
    split at h
    · simp at h
    · next inside =>
      rw [Image.reach_bind_ok whole] at h
      obtain ⟨-, h⟩ := h
      split at h
      · simp at h
      · next tag known =>
        obtain ⟨⟨kind, size⟩, body, h⟩ := bind_eq_ok_iff.1 h
        obtain ⟨covers, fits, rfl, rfl⟩ := (readBody_eq_ok_iff whole (by omega)).1 body
        obtain rfl := Option.some.inj (Except.ok.inj h)
        exact ⟨tag, known, covers, Nat.add_assoc offset 1 _ ▸ fits, rfl⟩
  · rintro ⟨tag, known, covers, fits, rfl⟩
    rw [describe_size] at fits
    have inside : ¬ image.length ≤ offset := by omega
    simp only [blockAt?, if_neg inside, Image.reach_bind_ok whole, known]
    refine ⟨by omega, ?_⟩
    rw [readBody_of_fits whole covers (by omega)]
    rfl

theorem length_le_of_blockAt?_none (whole : image.Whole)
    (h : blockAt? image offset = .ok none) : image.length ≤ offset := by
  simp only [blockAt?] at h
  split at h
  · assumption
  · rw [Image.reach_bind_ok whole] at h
    obtain ⟨-, h⟩ := h
    split at h
    · simp at h
    · obtain ⟨_, _, h⟩ := bind_eq_ok_iff.1 h
      simp [pure, Except.pure] at h

theorem describe_moved {a b : Image} {i j : Nat} {tag : Tag}
    (s : Same a i b j (describe a i tag).size) :
    describe b j tag =
      { describe a i tag with
        offset := j, kind := (describe a i tag).kind.mapData (.moved i j) } := by
  rw [describe_size] at s
  have body : Same a (i + 1) b (j + 1) (bodySize a (i + 1) tag) :=
    s.part (Nat.le_add_right i 1) (by omega) (by omega)
  simp only [describe, bodySize_moved body, kindAt_moved body, Block.mk.injEq, true_and]
  refine Kind.mapData_congr fun data h => ?_
  have behind := (data_kindAt h).1
  simp only [Span.moved, Span.mk.injEq, and_true]
  omega

end Tzx

/-! ### Blocks of a tape -/

namespace Block

def moved (new : Nat) : Block → Block
  | tap b => tap { b with offset := new }
  | tzx b => tzx { b with offset := new, kind := b.kind.mapData (.moved b.offset new) }

def payload? : Block → Option Tzx.Span
  | tap b => some ⟨b.payloadStart, b.length.toNat⟩
  | tzx b => b.kind.data?

@[simp] theorem moved_offset (new : Nat) (b : Block) : (b.moved new).offset = new := by
  cases b <;> rfl

@[simp] theorem moved_size (new : Nat) (b : Block) : (b.moved new).size = b.size := by
  cases b <;> rfl

end Block

namespace Tape

variable {t t' : Tape} {o o' : Nat} {b : Block}

theorem blockAt?_tap (tap : t.format = .tap) :
    t.blockAt? o = .ok (some b) ↔ ∃ c, Tap.blockAt? t.image o = .ok (some c) ∧ b = .tap c := by
  simp only [blockAt?, tap, bind_eq_ok_iff]
  constructor
  · rintro ⟨c?, read, h⟩
    obtain ⟨c, rfl, rfl⟩ := Option.map_eq_some_iff.1 (Except.ok.inj h)
    exact ⟨c, read, rfl⟩
  · rintro ⟨c, read, rfl⟩
    exact ⟨some c, read, rfl⟩

theorem blockAt?_tzx (tzx : t.format = .tzx) :
    t.blockAt? o = .ok (some b) ↔ ∃ c, Tzx.blockAt? t.image o = .ok (some c) ∧ b = .tzx c := by
  simp only [blockAt?, tzx, bind_eq_ok_iff]
  constructor
  · rintro ⟨c?, read, h⟩
    obtain ⟨c, rfl, rfl⟩ := Option.map_eq_some_iff.1 (Except.ok.inj h)
    exact ⟨c, read, rfl⟩
  · rintro ⟨c, read, rfl⟩
    exact ⟨some c, read, rfl⟩

/-- Only from the end of the tape on there is neither a block nor a fault. -/
theorem length_le_of_blockAt?_none (whole : t.image.Whole) (h : t.blockAt? o = .ok none) :
    t.length ≤ o := by
  cases format : t.format with
  | tap =>
    simp only [blockAt?, format, bind_eq_ok_iff] at h
    obtain ⟨c?, read, h⟩ := h
    obtain rfl := Option.map_eq_none_iff.1 (Except.ok.inj h)
    exact Tap.length_le_of_blockAt?_none whole read
  | tzx =>
    simp only [blockAt?, format, bind_eq_ok_iff] at h
    obtain ⟨c?, read, h⟩ := h
    obtain rfl := Option.map_eq_none_iff.1 (Except.ok.inj h)
    exact Tzx.length_le_of_blockAt?_none whole read

/-- A block starts where it was looked for, and the measured length covers it. -/
theorem blockAt?_fits (whole : t.image.Whole) (h : t.blockAt? o = .ok (some b)) :
    b.offset = o ∧ o + b.size ≤ t.length := by
  cases format : t.format with
  | tap =>
    obtain ⟨c, read, rfl⟩ := (blockAt?_tap format).1 h
    obtain ⟨fits, rfl⟩ := (Tap.blockAt?_eq_ok_some_iff whole).1 read
    exact ⟨rfl, fits⟩
  | tzx =>
    obtain ⟨c, read, rfl⟩ := (blockAt?_tzx format).1 h
    obtain ⟨tag, -, -, fits, rfl⟩ := (Tzx.blockAt?_eq_ok_some_iff whole).1 read
    exact ⟨rfl, fits⟩

theorem payload_of_blockAt? (whole : t.image.Whole) (h : t.blockAt? o = .ok (some b))
    {data : Tzx.Span} (payload : b.payload? = some data) :
    o < data.offset ∧ data.stop = o + b.size := by
  cases format : t.format with
  | tap =>
    obtain ⟨c, read, rfl⟩ := (blockAt?_tap format).1 h
    obtain ⟨fits, rfl⟩ := (Tap.blockAt?_eq_ok_some_iff whole).1 read
    obtain rfl := Option.some.inj payload
    exact ⟨Nat.lt_add_of_pos_right Nat.two_pos, Nat.add_assoc o 2 _⟩
  | tzx =>
    obtain ⟨c, read, rfl⟩ := (blockAt?_tzx format).1 h
    obtain ⟨tag, -, -, fits, rfl⟩ := (Tzx.blockAt?_eq_ok_some_iff whole).1 read
    obtain ⟨behind, stop⟩ := Tzx.data_kindAt payload
    exact ⟨behind, stop.trans (Nat.add_assoc o 1 _)⟩

/-- The measured length covers the payload of a block. -/
theorem payload_fits (whole : t.image.Whole) (h : t.blockAt? o = .ok (some b)) (data : Tzx.Span)
    (payload : b.payload? = some data) : data.stop ≤ t.image.length := by
  rw [(payload_of_blockAt? whole h payload).2]
  exact (blockAt?_fits whole h).2

/-- A TAP block has a flag just when it has a payload, of which the flag is the first byte. -/
theorem flag_of_blockAt? (whole : t.image.Whole) {c : Tap.Block}
    (h : t.blockAt? o = .ok (some (.tap c))) :
    c.flag = if c.length = 0 then none else some (t.image.byte c.payloadStart) := by
  cases format : t.format with
  | tap =>
    obtain ⟨c', read, same⟩ := (blockAt?_tap format).1 h
    obtain rfl := Block.tap.inj same
    rw [((Tap.blockAt?_eq_ok_some_iff whole).1 read).2]
    rfl
  | tzx =>
    obtain ⟨_, -, other⟩ := (blockAt?_tzx format).1 h
    exact nomatch other

/-- The same bytes on a tape of the same format are the same block. -/
theorem blockAt?_moved (whole : t.image.Whole) (whole' : t'.image.Whole)
    (format : t'.format = t.format) (h : t.blockAt? o = .ok (some b))
    (same : Same t.image o t'.image o' b.size) : t'.blockAt? o' = .ok (some (b.moved o')) := by
  have fits : o' + b.size ≤ t'.image.length := whole' ▸ same.right
  cases kind : t.format with
  | tap =>
    obtain ⟨c, read, rfl⟩ := (blockAt?_tap kind).1 h
    obtain ⟨-, rfl⟩ := (Tap.blockAt?_eq_ok_some_iff whole).1 read
    refine (blockAt?_tap (format.trans kind)).2 ⟨_, (Tap.blockAt?_eq_ok_some_iff whole').2 ?_, rfl⟩
    exact ⟨fits, (Tap.describe_moved same).symm⟩
  | tzx =>
    obtain ⟨c, read, rfl⟩ := (blockAt?_tzx kind).1 h
    obtain ⟨tag, known, covers, -, rfl⟩ := (Tzx.blockAt?_eq_ok_some_iff whole).1 read
    have body : Same t.image (o + 1) t'.image (o' + 1) (Tzx.bodySize t.image (o + 1) tag) :=
      same.part (Nat.le_add_right o 1) (Nat.le_of_eq (Nat.add_assoc o 1 _)) (by omega)
    refine (blockAt?_tzx (format.trans kind)).2 ⟨_, (Tzx.blockAt?_eq_ok_some_iff whole').2 ?_, rfl⟩
    refine ⟨tag, ?_, Tzx.lengthCovers_moved body covers, fits, (Tzx.describe_moved same).symm⟩
    rw [same.first (Block.size_pos _), known]

theorem moved_self (whole : t.image.Whole) (h : t.blockAt? o = .ok (some b)) : b.moved o = b := by
  obtain ⟨rfl, -⟩ := blockAt?_fits whole h
  cases b with
  | tap c => rfl
  | tzx c =>
    have kind : c.kind.mapData (.moved c.offset c.offset) = c.kind := by
      apply Tzx.Kind.mapData_eq_self
      intro data payload
      have behind : c.offset ≤ data.offset := Nat.le_of_lt (payload_of_blockAt? whole h payload).1
      rw [Tzx.Span.moved, Nat.add_sub_cancel' behind]
    simp only [Block.moved, Block.offset, kind]

end Tape

end Cassette
