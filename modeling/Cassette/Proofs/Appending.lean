import Cassette.Tap.Frame
import Cassette.Proofs.Splice

/-! Blocks written behind a TAP image. What is framed is read back (`row_of_frames`), and the
blocks that were there stay (`Row.extended`). Main statement: `indexed_appended`. -/

namespace Cassette

open Image

/-! ### Frames -/

namespace Tap

variable {payload written : Bytes} {queue rest : List Bytes}

theorem frame_eq_ok_iff :
    frame payload = .ok written ↔ payload.size ≤ payloadLimit ∧
      written = (LittleEndian.digits 2 payload.size).toArray ++ payload := by
  rw [frame]
  split
  · next short => exact ⟨fun h => ⟨short, (Except.ok.inj h).symm⟩, fun h => by rw [h.2]⟩
  · next long => exact ⟨nofun, fun h => absurd h.1 long⟩

theorem word_of_frame (framed : frame payload = .ok written) :
    ((Image.ofBytes written).word 0).toNat = payload.size := by
  obtain ⟨short, rfl⟩ := frame_eq_ok_iff.1 framed
  rw [payloadLimit] at short
  simp [Image.word, Image.number, Image.byte, ofBytes, LittleEndian.digits,
    Array.getElem?_append]
  omega

/-- Everything is framed if nothing is too long for a length word. -/
theorem frames_ok_iff :
    (frames queue).2 = .ok () ↔ ∀ payload ∈ queue, payload.size ≤ payloadLimit := by
  induction queue with
  | nil => simp [frames]
  | cons payload rest ih =>
    rw [List.forall_mem_cons, ← ih, frames, frame]
    by_cases short : payload.size ≤ payloadLimit
    · simp only [short, ↓reduceIte, true_and]
    · simp only [short, ↓reduceIte, false_and, reduceCtorEq]

theorem frames_fault {fault : FileFault} (failed : (frames queue).2 = .error fault) :
    fault = .blockTooLong := by
  induction queue with
  | nil => exact nomatch failed
  | cons payload rest ih =>
    by_cases short : payload.size ≤ payloadLimit
    · simp only [frames, frame, short, ↓reduceIte] at failed
      exact ih failed
    · simp only [frames, frame, short, ↓reduceIte] at failed
      exact (Except.error.inj failed).symm

theorem frames_append {more : Bytes} {result : Except FileFault Unit}
    (first : frames queue = (written, .ok ())) (second : frames rest = (more, result)) :
    frames (queue ++ rest) = (written ++ more, result) := by
  induction queue generalizing written with
  | nil =>
    obtain ⟨rfl, -⟩ := Prod.mk.inj first
    rw [List.nil_append, Array.empty_append, second]
  | cons payload queue ih =>
    rw [frames] at first
    split at first
    · exact nomatch first
    · next frame framed =>
      obtain ⟨rfl, others⟩ := Prod.mk.inj first
      rw [List.cons_append, frames, framed, ih (Prod.ext rfl others)]
      simp only [Array.append_assoc]

/-- Up to the first that is too long, all are framed. -/
theorem frames_takeWhile (queue : List Bytes) :
    frames (queue.takeWhile (·.size ≤ payloadLimit)) = ((frames queue).1, .ok ()) := by
  induction queue with
  | nil => rfl
  | cons payload rest ih =>
    by_cases short : payload.size ≤ payloadLimit
    · simp only [List.takeWhile_cons, frames, frame, short, decide_true, ↓reduceIte, ih]
    · simp only [List.takeWhile_cons, frames, frame, short, decide_false, Bool.false_eq_true,
        ↓reduceIte]

end Tap

namespace Tape

variable {t t' : Tape} {x : Index} {head stop : Nat} {bs : List Block} {before written : Bytes}
  {queue : List Bytes}

theorem block_of_frame {payload more : Bytes} (whole : t.image.Whole) (tap : t.format = .tap)
    (framed : Tap.frame payload = .ok written)
    (copied : t.image.bytes = before ++ written ++ more) :
    ∃ b, t.blockAt? before.size = .ok (some b) ∧ b.size = written.size ∧
      b.payloadIn t.image = some payload := by
  have word := Tap.word_of_frame framed
  obtain ⟨-, rfl⟩ := Tap.frame_eq_ok_iff.1 framed
  let frame := (LittleEndian.digits 2 payload.size).toArray ++ payload
  have size : frame.size = 2 + payload.size := by simp [frame]
  have all : (Image.ofBytes frame).slice 0 frame.size = frame := by
    rw [Image.slice, ofBytes, Nat.zero_add, Array.extract_size]
  have inside : 0 + frame.size ≤ (Image.ofBytes frame).length := Nat.le_of_eq (Nat.zero_add _)
  have same : Same (.ofBytes frame) 0 t.image before.size frame.size := by
    apply Same.of_append (whole_ofBytes frame) inside
    rw [all]
    exact copied
  rw [← same.word (by omega)] at word
  let c := Tap.describe t.image before.size
  have length : c.size = frame.size := by rw [size, ← word]; rfl
  have fits : before.size + c.size ≤ t.image.length := by
    rw [length, show t.image.length = t.image.bytes.size from whole]
    exact same.right
  refine ⟨.tap c, (blockAt?_tap tap).2 ⟨c, ?_, rfl⟩, length, ?_⟩
  · exact (Tap.blockAt?_eq_ok_some_iff whole).2 ⟨fits, rfl⟩
  · show some (t.image.slice (before.size + 2) (t.image.word before.size).toNat) = some payload
    rw [word, same.slice_add (Nat.le_of_eq size.symm)]
    simp [Image.slice, ofBytes, frame]

theorem slice_word {image : Image} {offset : Nat} (whole : image.Whole)
    (inside : offset + 2 ≤ image.length) :
    image.slice offset 2 = (LittleEndian.digits 2 (image.word offset).toNat).toArray := by
  have low := (image.byte offset).toNat_lt
  have high := (image.byte (offset + 1)).toNat_lt
  have word : (image.word offset).toNat =
      (image.byte offset).toNat + 256 * (image.byte (offset + 1)).toNat := by
    simp only [Image.word, Image.number, UInt16.toNat_ofNat', Nat.mul_zero, Nat.add_zero]
    omega
  have first : UInt8.ofNat (image.word offset).toNat = image.byte offset := by
    apply UInt8.toNat_inj.1
    rw [UInt8.toNat_ofNat', word]
    omega
  have second : UInt8.ofNat ((image.word offset).toNat / 256) = image.byte (offset + 1) := by
    apply UInt8.toNat_inj.1
    rw [UInt8.toNat_ofNat', word]
    omega
  have bytes := Image.toList_slice whole inside
  rw [← (image.slice offset 2).toArray_toList, bytes]
  simp only [LittleEndian.digits, first, second]
  rfl

/-- The frame of the payload of a block is the block. -/
theorem frame_payload (whole : t.image.Whole) (tap : t.format = .tap) {o : Nat} {b : Block}
    (read : t.blockAt? o = .ok (some b)) {payload : Bytes}
    (saved : b.payloadIn t.image = some payload) :
    Tap.frame payload = .ok (t.image.slice o b.size) := by
  obtain ⟨c, described, rfl⟩ := (blockAt?_tap tap).1 read
  obtain ⟨fits, rfl⟩ := (Tap.blockAt?_eq_ok_some_iff whole).1 described
  let length := (t.image.word o).toNat
  have inside : o + 2 + length ≤ t.image.length := Nat.add_assoc o 2 length ▸ fits
  obtain rfl : t.image.slice (o + 2) length = payload := Option.some.inj saved
  have size : (t.image.slice (o + 2) length).size = length := Image.size_slice whole inside
  have short : (t.image.slice (o + 2) length).size ≤ Tap.payloadLimit := by
    rw [size]
    exact Nat.le_of_lt_succ (t.image.word o).toNat_lt
  rw [Tap.frame, if_pos short, size, ← slice_word whole (by omega)]
  show Except.ok (t.image.slice o 2 ++ t.image.slice (o + 2) length) =
    .ok (t.image.slice o (2 + length))
  rw [Image.slice, Image.slice, Image.slice, Array.extract_append_extract,
    Nat.min_eq_left (by omega), Nat.max_eq_right (by omega), Nat.add_assoc]

/-- Frames one behind the other are a row of blocks with the payloads that were framed. -/
theorem row_of_frames (whole : t.image.Whole) (tap : t.format = .tap)
    (framed : Tap.frames queue = (written, .ok ())) (copied : t.image.bytes = before ++ written) :
    ∃ bs, t.Row before.size bs (before.size + written.size) ∧
      bs.map (Block.payloadIn t.image) = queue.map some := by
  induction queue generalizing before written with
  | nil =>
    obtain ⟨rfl, -⟩ := Prod.mk.inj framed
    exact ⟨[], .nil _, rfl⟩
  | cons payload rest ih =>
    rw [Tap.frames] at framed
    split at framed
    · exact nomatch framed
    · next frame first =>
      obtain ⟨rfl, others⟩ := Prod.mk.inj framed
      rw [← Array.append_assoc] at copied
      obtain ⟨b, read, size, shown⟩ := block_of_frame whole tap first copied
      obtain ⟨bs, row, payloads⟩ := ih (Prod.ext rfl others) copied
      rw [Array.size_append, ← size] at row
      refine ⟨b :: bs, .cons read ?_, ?_⟩
      · rwa [Array.size_append, ← Nat.add_assoc, ← size]
      · rw [List.map_cons, List.map_cons, shown, payloads]

theorem frames_inj {queue' : List Bytes} (framed : Tap.frames queue = (written, .ok ()))
    (framed' : Tap.frames queue' = (written, .ok ())) : queue = queue' := by
  let t : Tape := ⟨.tap, .ofBytes written, none⟩
  have whole : t.image.Whole := whole_ofBytes written
  have all : t.image.bytes = #[] ++ written := Array.empty_append.symm
  have ends : 0 + written.size = t.length := Nat.zero_add _
  obtain ⟨bs, row, payloads⟩ := row_of_frames whole rfl framed all
  obtain ⟨bs', row', payloads'⟩ := row_of_frames whole rfl framed' all
  have scanned := (row.scanFrom ends #[]).symm.trans (row'.scanFrom ends #[])
  have same : bs = bs' := by simpa using congrArg (·.blocks) scanned
  rw [same, payloads'] at payloads
  exact ((List.map_inj_right fun _ _ => Option.some.inj).1 payloads).symm

/-! ### What was there -/

theorem Row.append {mid : Nat} {cs : List Block} (row : t.Row head bs mid)
    (on : t.Row mid cs stop) : t.Row head (bs ++ cs) stop := by
  induction row with
  | nil => exact on
  | cons read _ ih => exact .cons read (ih on)

/-- A row of TAP blocks is read again from the same bytes. -/
theorem Row.extended (row : t.Row head bs stop) (whole : t.image.Whole)
    (whole' : t'.image.Whole) (format : t'.format = t.format) (tap : t.format = .tap)
    (same : Same t.image 0 t'.image 0 stop) :
    t'.Row head bs stop ∧
      bs.map (Block.payloadIn t'.image) = bs.map (Block.payloadIn t.image) := by
  induction row with
  | nil head => exact ⟨.nil head, rfl⟩
  | @cons head stop b bs read rest ih =>
    obtain ⟨c, -, rfl⟩ := (blockAt?_tap tap).1 read
    obtain ⟨rfl, -⟩ := blockAt?_fits whole read
    have le := rest.le
    have here : Same t.image (Block.tap c).offset t'.image (Block.tap c).offset
        (Block.tap c).size := same.part (Nat.zero_le _) (by omega) rfl
    have again := blockAt?_moved whole whole' format read here
    have payload : (Block.tap c).payloadIn t'.image = (Block.tap c).payloadIn t.image :=
      payloadIn_moved whole read here
    obtain ⟨row, payloads⟩ := ih same
    exact ⟨.cons again row, by rw [List.map_cons, List.map_cons, payloads, payload]⟩

/-- Frames appended to a TAP image that can be indexed are blocks behind those that were there. -/
theorem indexed_appended (h : Indexed t x) (tap : t.format = .tap)
    (framed : Tap.frames queue = (written, .ok ())) :
    let t' : Tape := { t with image := .ofBytes (t.image.bytes ++ written) }
    ∃ y, Indexed t' y ∧ y.count = x.count + queue.length ∧
      (∀ k < x.count, ∃ b, x.find t k = .ok b ∧ y.find t' k = .ok b ∧
        b.payloadIn t'.image = b.payloadIn t.image) ∧
      ∀ k payload, queue[k]? = some payload → ∃ b, y.find t' (x.count + k) = .ok b ∧
        b.payloadIn t'.image = some payload := by
  intro t'
  have whole' : t'.image.Whole := whole_ofBytes _
  have length : t.length = t.image.bytes.size := h.whole
  have copied : t'.image.bytes = #[] ++ t.image.slice 0 t.length ++ written := by
    rw [Array.empty_append, Image.slice, Nat.zero_add, length, Array.extract_size]
    rfl
  have same : Same t.image 0 t'.image 0 t.length :=
    Same.of_append h.whole (Nat.le_of_eq (Nat.zero_add _)) copied
  obtain ⟨first, payloads⟩ := h.row.extended h.whole whole' rfl tap same
  obtain ⟨cs, second, others⟩ := row_of_frames whole' tap framed rfl
  rw [← length] at second
  have stop : t.length + written.size = t'.length := by
    rw [length]
    exact (Array.size_append).symm
  have row := first.append second
  rw [stop] at row
  have scan : t'.scan = ⟨(t.scan.blocks.toList ++ cs).toArray, t'.length, none⟩ := by
    have all := row.scanFrom rfl #[]
    rwa [Array.empty_append] at all
  have header : Same t.image 0 t'.image 0 t.start :=
    same.part (Nat.le_refl 0) (by have := h.start_le; omega) rfl
  let y : Index := .ofBlocks (t.scan.blocks.toList ++ cs).toArray
  have h' : Indexed t' y := by
    refine ⟨ofImage_same h whole' header, ?_⟩
    simp only [Index.ofTape, scan]
    rfl
  have size : cs.length = queue.length := by simpa using congrArg List.length others
  have count : y.count = x.count + queue.length := by
    rw [h'.count_eq, scan, h.count_eq, ← size]
    simp
  have found (k : Nat) : t'.scan.blocks[k]? = (t.scan.blocks.toList ++ cs)[k]? := by
    rw [scan, List.getElem?_toArray]
  have before : t.scan.blocks.toList.length = x.count := h.count_eq.symm
  refine ⟨y, h', count, fun k inside => ?_, fun k payload queued => ?_⟩
  · obtain ⟨b, here, -, -⟩ := h.read inside
    have listed : t.scan.blocks.toList[k]? = some b := by rwa [Array.getElem?_toList]
    refine ⟨b, h.find_of_found here, h'.find_of_found ?_, ?_⟩
    · rw [found, List.getElem?_append_left (by omega), listed]
    · have shown := congrArg (·[k]?) payloads
      simpa only [List.getElem?_map, listed, Option.map_some, Option.some.injEq] using shown
  · have shown := congrArg (·[k]?) others
    simp only [List.getElem?_map, queued, Option.map_some] at shown
    obtain ⟨b, listed, shown⟩ := Option.map_eq_some_iff.1 shown
    refine ⟨b, h'.find_of_found ?_, shown⟩
    rw [found, List.getElem?_append_right (by omega), before, Nat.add_sub_cancel_left, listed]

end Tape

end Cassette
