import Mathlib.Control.Monad.Basic
import Cassette.Edit
import Cassette.Proofs.Row

/-! Cutting a tape up and joining chosen blocks again. What `Tape.splice` writes is the file
header and then the bytes of the chosen blocks (`splice_eq`). Since a block is decided by its
own bytes, the result can be opened and indexed like the first tape, and each of its blocks is
the chosen one, carried along to where it now stands. Main statement: `Tape.splice_order`. -/

namespace Cassette

open Image (Same)

variable {t t' : Tape} {x y : Index} {order : List Nat}

/-! ### What is written -/

namespace Tape

def extent (t : Tape) (ordinal : Nat) : Bytes :=
  t.image.slice (t.offsetAt ordinal) (t.offsetAt (ordinal + 1) - t.offsetAt ordinal)

def extents (t : Tape) : List Nat → Bytes
  | [] => #[]
  | ordinal :: rest => t.extent ordinal ++ t.extents rest

theorem extent_eq {k size : Nat} (next : t.offsetAt (k + 1) = t.offsetAt k + size) :
    t.extent k = t.image.slice (t.offsetAt k) size := by
  rw [extent, next, Nat.add_sub_cancel_left]

end Tape

namespace Copy

theorem range_of_inside {image : Image} (whole : image.Whole) {offset count : Nat}
    (inside : offset + count ≤ image.length) (c : Copy) :
    (c.range image offset count).out = c.out ++ image.slice offset count ∧
      (c.range image offset count).result = .ok () :=
  ⟨rfl, if_pos (Image.size_slice whole inside)⟩

theorem blocks_eq (h : Indexed t x) (inside : ∀ k ∈ order, k < x.count) (c : Copy)
    (sound : c.result = .ok ()) :
    (blocks t.image t.scan.blocks c order).out = c.out ++ t.extents order ∧
      (blocks t.image t.scan.blocks c order).result = .ok () := by
  induction order generalizing c with
  | nil => exact ⟨by simp [blocks, Tape.extents], sound⟩
  | cons k rest ih =>
    obtain ⟨b, found, -, next⟩ := h.read (inside k (by simp))
    have start := Tape.offsetAt_of_found found
    have fits : b.offset + b.size ≤ t.image.length := start ▸ next ▸ h.offsetAt_le (k + 1)
    obtain ⟨out, done⟩ := range_of_inside h.whole fits c
    obtain ⟨all, result⟩ := ih (fun k hk => inside k (by simp [hk])) _ done
    have extent := start ▸ Tape.extent_eq next
    simp only [blocks, found, done]
    exact ⟨by rw [all, out, Tape.extents, extent, Array.append_assoc], result⟩

end Copy

namespace Tape

/-- The file header is copied, and the chosen blocks behind it. -/
theorem splice_eq (h : Indexed t x) (inside : ∀ k ∈ order, k < x.count) :
    (t.splice x order).out = t.image.slice 0 t.start ++ t.extents order ∧
      (t.splice x order).result = .ok () := by
  have fits : 0 + t.start ≤ t.image.length := by
    rw [Nat.zero_add]
    exact h.start_le
  obtain ⟨out, done⟩ := Copy.range_of_inside h.whole fits ⟨#[], t.scan.head, .ok ()⟩
  obtain ⟨all, result⟩ := Copy.blocks_eq h inside _ done
  have counted : ¬ t.scan.blocks.size ≠ x.count := by simp [h.count_eq]
  simp only [splice, h.scan_sound.1, if_neg counted, done]
  exact ⟨by rw [all, out]; simp, result⟩

/-- Consecutive blocks take up the stretch from the start of the first to that of the next. -/
theorem extents_range' (h : Indexed t x) {first count : Nat} (inside : first + count ≤ x.count) :
    t.extents (List.range' first count) =
      t.image.bytes.extract (t.offsetAt first) (t.offsetAt (first + count)) := by
  induction count generalizing first with
  | zero =>
    rw [List.range'_zero, extents, Nat.add_zero,
      Array.extract_empty_of_stop_le_start (Nat.le_refl _)]
  | succ count ih =>
    have step : t.offsetAt first ≤ t.offsetAt (first + 1) := h.offsetAt_mono (by omega)
    have rest : t.offsetAt (first + 1) ≤ t.offsetAt (first + 1 + count) :=
      h.offsetAt_mono (by omega)
    rw [List.range'_succ, extents, ih (by omega), extent, Image.slice, Nat.add_sub_cancel' step,
      Array.extract_append_extract, Nat.min_eq_left step, Nat.max_eq_right rest,
      Nat.add_right_comm, Nat.add_assoc]

/-- All blocks in order give the bytes of the tape back. -/
theorem splice_all (h : Indexed t x) : (t.splice x (List.range x.count)).out = t.image.bytes := by
  have all := extents_range' h (Nat.le_of_eq (Nat.zero_add x.count))
  rw [Nat.zero_add, h.offsetAt_zero, h.offsetAt_of_le (Nat.le_refl _)] at all
  rw [(splice_eq h fun k => List.mem_range.1).1, List.range_eq_range', all, Image.slice,
    Nat.zero_add, Array.extract_append_extract, Nat.zero_min, Nat.max_eq_right h.start_le,
    length, show t.image.length = t.image.bytes.size from h.whole, Array.extract_size]

end Tape

/-! ### What is read back -/

theorem Tzx.version_same {a b : Image} (whole : a.Whole) (whole' : b.Whole)
    (same : Same a 0 b 0 headerSize) : version b = version a := by
  have left : ¬ a.length < headerSize := by
    have := same.left
    have := whole
    unfold Image.Whole at this
    omega
  have right : ¬ b.length < headerSize := by
    have := same.right
    have := whole'
    unfold Image.Whole at this
    omega
  have magic : b.slice 0 magic.size = a.slice 0 magic.size :=
    same.slice_add (n := 0) (by decide)
  have major : b.byte 8 = a.byte 8 := same.byte 8 (by decide)
  have minor : b.byte 9 = a.byte 9 := same.byte 9 (by decide)
  simp only [version, if_neg left, if_neg right, magic, major, minor]

namespace Tape

/-- An image with the same header can be opened like that of the tape. -/
theorem ofImage_same (h : Indexed t x) {image : Image} (whole : image.Whole)
    (same : Same t.image 0 image 0 t.start) :
    ofImage t.format image = .ok { t with image } := by
  have opened := h.opened
  rw [← h.image_eq] at opened
  cases format : t.format with
  | tap =>
    rw [format] at opened
    have version : none = t.version := congrArg Tape.version (Except.ok.inj opened)
    rw [ofImage, version]
  | tzx =>
    rw [format] at opened
    rw [start, format] at same
    obtain ⟨version, read, made⟩ := bind_eq_ok_iff.1 opened
    have version : some version = t.version := congrArg Tape.version (Except.ok.inj made)
    rw [ofImage, Tzx.version_same h.whole whole same, read, ← version]
    rfl

/-- Chosen blocks joined behind other bytes are a row of blocks, each of which takes up the
same bytes as the one it was chosen as. -/
theorem row_joined (h : Indexed t x) (whole : t'.image.Whole) (format : t'.format = t.format)
    (inside : ∀ k ∈ order, k < x.count) {before : Bytes}
    (joined : t'.image.bytes = before ++ t.extents order) :
    ∃ bs, t'.Row before.size bs t'.length ∧ bs.length = order.length ∧
      ∀ j k, order[j]? = some k → Same t.image (t.offsetAt k) t'.image (offsetIn bs t'.length j)
        (t.offsetAt (k + 1) - t.offsetAt k) := by
  -- What has been joined so far is part of what stands before the rest.
  induction order generalizing before with
  | nil =>
    have stop : t'.length = before.size := by
      rw [length, show t'.image.length = t'.image.bytes.size from whole, joined]
      simp [extents]
    exact ⟨[], stop ▸ .nil _, rfl, nofun⟩
  | cons k rest ih =>
    obtain ⟨b, -, read, next⟩ := h.read (inside k (by simp))
    have fits : t.offsetAt k + b.size ≤ t.image.length := next ▸ h.offsetAt_le (k + 1)
    have extent := extent_eq next
    have copied : t'.image.bytes =
        before ++ t.image.slice (t.offsetAt k) b.size ++ t.extents rest := by
      rw [joined, extents, extent, Array.append_assoc]
    have same := Same.of_append h.whole fits copied
    have size : (before ++ t.extent k).size = before.size + b.size := by
      rw [extent, Array.size_append, Image.size_slice h.whole fits]
    have behind : t'.image.bytes = before ++ t.extent k ++ t.extents rest := extent ▸ copied
    obtain ⟨bs, row, count, blocks⟩ := ih (fun k hk => inside k (by simp [hk])) behind
    have first := blockAt?_moved h.whole whole format read same
    refine ⟨b.moved before.size :: bs, .cons first ?_, by simp [count], fun j k' chosen => ?_⟩
    · rwa [Block.moved_size, ← size]
    · cases j with
      | zero =>
        obtain rfl : k = k' := by simpa using chosen
        rw [next, Nat.add_sub_cancel_left]
        show Same t.image (t.offsetAt k) t'.image (b.moved before.size).offset b.size
        rwa [Block.moved_offset]
      | succ j => exact blocks j k' chosen

/-- The header of a tape and chosen blocks behind it make a tape that can be indexed, and each
of its blocks takes up the same bytes as the one it was chosen as. -/
theorem indexed_joined (h : Indexed t x) (inside : ∀ k ∈ order, k < x.count) {written : Bytes}
    (joined : written = t.image.slice 0 t.start ++ t.extents order) :
    ∃ t' y, ofImage t.format (.ofBytes written) = .ok t' ∧ t'.format = t.format ∧ Indexed t' y ∧
      y.count = order.length ∧
      ∀ j k, order[j]? = some k → Same t.image (t.offsetAt k) t'.image (t'.offsetAt j)
        (t.offsetAt (k + 1) - t.offsetAt k) := by
  have whole := Image.whole_ofBytes written
  have inHeader : 0 + t.start ≤ t.image.length := by
    rw [Nat.zero_add]
    exact h.start_le
  have copied :
      (Image.ofBytes written).bytes = #[] ++ t.image.slice 0 t.start ++ t.extents order := by
    rw [Array.empty_append]
    exact joined
  have header := Same.of_append h.whole inHeader copied
  have opened := ofImage_same h whole header
  let t' : Tape := { t with image := .ofBytes written }
  have start : (t.image.slice 0 t.start).size = t'.start := Image.size_slice h.whole inHeader
  have format : t'.format = t.format := rfl
  have whole' : t'.image.Whole := whole
  obtain ⟨bs, row, count, blocks⟩ := row_joined h whole' format inside joined
  rw [start] at row
  have scan : t'.scan = ⟨bs.toArray, t'.length, none⟩ := by
    have all := row.scanFrom rfl #[]
    rwa [Array.empty_append] at all
  have indexed : Index.ofTape t' = .ok (.ofBlocks bs.toArray) := by
    simp only [Index.ofTape, scan]
  refine ⟨t', _, opened, rfl, ⟨opened, indexed⟩, by simp [Index.ofBlocks, count], ?_⟩
  rw [show t'.offsetAt = offsetIn bs t'.length by funext j; rw [offsetAt, scan]]
  exact blocks

end Tape

def Block.payloadIn (image : Image) (b : Block) : Option Bytes :=
  b.payload?.map fun s => image.slice s.offset s.length

theorem Block.payload?_moved (new : Nat) (b : Block) :
    (b.moved new).payload? = b.payload?.map (.moved b.offset new) := by
  cases b with
  | tap b => simp [moved, payload?, Tzx.Span.moved, Tap.Block.payloadStart, offset]
  | tzx b =>
    obtain ⟨offset, size, kind⟩ := b
    cases kind <;> rfl

namespace Tape

theorem payloadIn_moved (whole : t.image.Whole) {o o' : Nat} {b : Block}
    (read : t.blockAt? o = .ok (some b)) (same : Same t.image o t'.image o' b.size) :
    (b.moved o').payloadIn t'.image = b.payloadIn t.image := by
  have start := (blockAt?_fits whole read).1
  simp only [Block.payloadIn, Block.payload?_moved]
  cases payload : b.payload? with
  | none => rfl
  | some data =>
    obtain ⟨behind, stop⟩ := payload_of_blockAt? whole read payload
    simp only [Tzx.Span.stop] at stop
    have inside : data.offset - o + data.length ≤ b.size := by omega
    have bytes := same.slice_add inside
    rw [Nat.add_sub_cancel' (Nat.le_of_lt behind)] at bytes
    simp only [Option.map_some, Tzx.Span.moved, start, bytes]

/-- A block that takes up the same bytes on another tape is found there, carried along. -/
theorem find_same (h : Indexed t x) (h' : Indexed t' y) (format : t'.format = t.format) {j k : Nat}
    (inside : k < x.count) (inside' : j < y.count)
    (same : Same t.image (t.offsetAt k) t'.image (t'.offsetAt j)
      (t.offsetAt (k + 1) - t.offsetAt k)) :
    ∃ b, x.find t k = .ok b ∧ t.extent k = t.image.slice b.offset b.size ∧
      y.find t' j = .ok (b.moved (t'.offsetAt j)) ∧
      (b.moved (t'.offsetAt j)).payloadIn t'.image = b.payloadIn t.image := by
  obtain ⟨b, -, read, next⟩ := h.read inside
  have extent := (blockAt?_fits h.whole read).1 ▸ extent_eq next
  rw [next, Nat.add_sub_cancel_left] at same
  have moved := blockAt?_moved h.whole h'.whole format read same
  exact ⟨b, h.find_eq inside read, extent, h'.find_eq inside' moved,
    payloadIn_moved h.whole read same⟩

/-- Joining chosen blocks of an indexed tape, in any order and as often as wanted, makes a tape
that is read back as just these blocks: what is written is the file header and their bytes, and
opened and indexed anew it has one block for each choice, the one chosen but for where it stands. -/
theorem splice_order (h : Indexed t x) (inside : ∀ k ∈ order, k < x.count) :
    (t.splice x order).result = .ok () ∧
      (t.splice x order).out = t.image.slice 0 t.start ++ t.extents order ∧
      (∃ t' y, ofImage t.format (.ofBytes (t.splice x order).out) = .ok t' ∧
        Index.ofTape t' = .ok y ∧ y.count = order.length ∧
        ∀ j k, order[j]? = some k → ∃ b, x.find t k = .ok b ∧
          t.extent k = t.image.slice b.offset b.size ∧
          y.find t' j = .ok (b.moved (t'.offsetAt j)) ∧
          (b.moved (t'.offsetAt j)).payloadIn t'.image = b.payloadIn t.image) ∧
      (order = List.range x.count → (t.splice x order).out = t.image.bytes) := by
  obtain ⟨out, result⟩ := splice_eq h inside
  obtain ⟨t', y, opened, format, h', count, same⟩ := indexed_joined h inside out
  refine ⟨result, out, ⟨t', y, opened, h'.indexed, count, fun j k chosen => ?_⟩, ?_⟩
  · have there : j < y.count := count ▸ (List.getElem?_eq_some_iff.1 chosen).1
    exact find_same h h' format (inside k (List.mem_of_getElem? chosen)) there (same j k chosen)
  · rintro rfl
    exact splice_all h

/-- A pause and a tone, chosen as tone, pause and tone. -/
theorem splice_order_twice :
    let t : Tape := ⟨.tzx, .ofBytes (Tzx.magic ++ #[1, 20, 0x20, 7, 0, 0x12, 1, 2, 3, 0]),
      some (1, 20)⟩
    let x : Index := ⟨#[10], 2⟩
    Indexed t x ∧ (∀ k ∈ [1, 0, 1], k < x.count) ∧ (t.splice x [1, 0, 1]).result = .ok () ∧
      (t.splice x [1, 0, 1]).out = Tzx.magic ++ #[1, 20, 0x12, 1, 2, 3, 0, 0x20, 7, 0, 0x12, 1, 2,
        3, 0] := by
  intro t x
  have indexed : Indexed t x := ⟨rfl, by decide +kernel⟩
  have inside : ∀ k ∈ [1, 0, 1], k < x.count := by decide
  have ⟨result, _, _, _⟩ := splice_order indexed inside
  exact ⟨indexed, inside, result, by decide +kernel⟩

end Tape

end Cassette
