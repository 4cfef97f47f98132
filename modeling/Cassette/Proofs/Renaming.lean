import Cassette.Proofs.Measured
import Cassette.Proofs.Splice

/-! Renaming in place. The nineteen bytes of a header lie inside the payload of its block, so
writing over them changes no length word, id or field by which blocks are found. Main statement:
`rename_indexed`, a renamed tape has its blocks where they were, and but for the one with the
header they are the same blocks (`Redrawn`). -/

namespace Cassette

namespace Image

variable {bytes new : Bytes} {image : Image} {offset count i o : Nat}

/-! ### Writing over bytes -/

theorem size_patch (inside : o + new.size ≤ bytes.size) :
    (patch bytes o new).size = bytes.size := by
  simp only [patch, Array.size_append, Array.size_extract, Array.size_replicate]
  omega

/-- Where bytes were written they stand, and everywhere else those that stood there. -/
theorem getElem?_patch (inside : o + new.size ≤ bytes.size) (i : Nat) :
    (patch bytes o new)[i]? = if o ≤ i ∧ i < o + new.size then new[i - o]? else bytes[i]? := by
  have gap : Array.replicate (o - bytes.size) (0 : UInt8) = #[] := by
    rw [Nat.sub_eq_zero_of_le (by omega), Array.replicate_zero]
  have front : (bytes.extract 0 o).size = o := by
    rw [Array.size_extract]
    omega
  have middle : (bytes.extract 0 o ++ new).size = o + new.size := by
    rw [Array.size_append, front]
  rw [patch, gap, Array.append_empty]
  rcases Nat.lt_or_ge i o with before | from'
  · rw [if_neg (by omega), Array.getElem?_append_left (by omega),
      Array.getElem?_append_left (by omega), Array.getElem?_extract, if_pos (by omega),
      Nat.zero_add]
  · rcases Nat.lt_or_ge i (o + new.size) with within | behind
    · rw [if_pos ⟨from', within⟩, Array.getElem?_append_left (by omega),
        Array.getElem?_append_right (by omega), front]
    · rw [if_neg (by omega), Array.getElem?_append_right (by omega), middle,
        Array.getElem?_extract]
      by_cases there : i < bytes.size
      · rw [if_pos (by omega), Nat.add_sub_cancel' behind]
      · rw [if_neg (by omega), Array.getElem?_eq_none (by omega)]

theorem patch_append {more : Bytes} (inside : o + new.size ≤ bytes.size) :
    patch (bytes ++ more) o new = patch bytes o new ++ more := by
  have size := size_patch inside
  apply Array.ext_getElem?
  intro i
  rw [getElem?_patch (by rw [Array.size_append]; omega), Array.getElem?_append,
    Array.getElem?_append, size, getElem?_patch inside]
  by_cases written : o ≤ i ∧ i < o + new.size
  · rw [if_pos written, if_pos written, if_pos (by omega)]
  · rw [if_neg written, if_neg written]

theorem same_patch (inside : o + new.size ≤ image.bytes.size)
    (fits : offset + count ≤ image.bytes.size)
    (apart : offset + count ≤ o ∨ o + new.size ≤ offset) :
    Same image offset { image with bytes := patch image.bytes o new } offset count where
  left := fits
  right := by rwa [size_patch inside]
  byte k within := by
    simp only [byte, Array.getD_eq_getD_getElem?]
    rw [getElem?_patch inside, if_neg (by omega)]

theorem getD_slice (inside : offset + count ≤ image.bytes.size) {i : Nat} (within : i < count) :
    (image.slice offset count).getD i 0 = image.byte (offset + i) := by
  rw [slice, byte, Array.getD_eq_getD_getElem?, Array.getD_eq_getD_getElem?,
    Array.getElem?_extract, if_pos (by omega)]

theorem overwrite_eq_ok_iff {image' : Image} (some : 0 < new.size) :
    image.overwrite o new = .ok image' ↔ o + new.size ≤ image.length ∧
      image' = { image with bytes := patch image.bytes o new } := by
  rw [overwrite, if_neg (Nat.ne_of_gt some)]
  split
  · next short => exact ⟨nofun, fun h => absurd h.1 (Nat.not_le.2 short)⟩
  · next long =>
    refine ⟨fun h => ⟨Nat.not_lt.1 long, (Except.ok.inj h).symm⟩, fun h => ?_⟩
    rw [h.2]

end Image

/-! ### Headers -/

theorem Tap.Header.size_payload (header : Tap.Header) (flag : UInt8) :
    (header.payload flag).size = 19 := by
  simp [payload]

/-- Where the payload is that may be a header: that of a TAP block or one of standard speed. -/
def Block.romPayload? : Block → Option Tzx.Span
  | .tap b => some ⟨b.payloadStart, b.length.toNat⟩
  | .tzx b =>
    match b.kind with
    | .standardSpeed _ data => some data
    | _ => none

theorem Block.payload_of_rom {b : Block} {data : Tzx.Span} (rom : b.romPayload? = some data) :
    b.payload? = some data := by
  cases b with
  | tap b => exact rom
  | tzx b =>
    obtain ⟨offset, size, kind⟩ := b
    cases kind with
    | standardSpeed pauseMs data => exact rom
    | _ => cases rom

namespace Tape

open Image

variable {t t' : Tape} {x : Index} {b : Block} {o k : Nat} {data : Tzx.Span} {placed : PlacedHeader}

def headerIn (t : Tape) (data : Tzx.Span) : Option PlacedHeader :=
  if data.length = 19 ∧ t.image.byte data.offset = 0 then
    some ⟨data.offset, 0, Tap.headerAt t.image (data.offset + 1)⟩
  else none

theorem headerIn_eq_some_iff : t.headerIn data = some placed ↔
    ∃ o, data = ⟨o, 19⟩ ∧ t.image.byte o = 0 ∧
      placed = ⟨o, 0, Tap.headerAt t.image (o + 1)⟩ := by
  obtain ⟨offset, length⟩ := data
  simp only [headerIn, Option.ite_none_right_eq_some, Option.some.injEq, Tzx.Span.mk.injEq]
  constructor
  · rintro ⟨⟨rfl, flag⟩, rfl⟩
    exact ⟨offset, ⟨rfl, rfl⟩, flag, rfl⟩
  · rintro ⟨_, ⟨rfl, rfl⟩, flag, rfl⟩
    exact ⟨⟨rfl, flag⟩, rfl⟩

/-- In either format a block carries a header if its payload is one. -/
theorem headerOf_eq (whole : t.image.Whole) (read : t.blockAt? o = .ok (some b)) :
    t.headerOf b = .ok (b.romPayload?.bind t.headerIn) := by
  cases format : t.format with
  | tap =>
    obtain ⟨c, found, rfl⟩ := (blockAt?_tap format).1 read
    obtain ⟨-, rfl⟩ := (Tap.blockAt?_eq_ok_some_iff whole).1 found
    have nineteen : t.image.word o = Tap.headerLength ↔ (t.image.word o).toNat = 19 :=
      UInt16.toNat_inj.symm
    simp only [headerOf, Tap.describe, Block.romPayload?, Option.bind_some, headerIn,
      Tap.Block.payloadStart, nineteen]
    by_cases is : (t.image.word o).toNat = 19 ∧ t.image.byte (o + 2) = 0
    · have some : t.image.word o ≠ 0 := fun none => absurd is.1 (by simp [none])
      rw [if_pos is, if_pos is, if_neg some, Option.map_some, Option.getD_some, is.2]
    · rw [if_neg is, if_neg is, Option.map_none]
  | tzx =>
    obtain ⟨⟨offset, size, kind⟩, found, rfl⟩ := (blockAt?_tzx format).1 read
    cases kind with
    | standardSpeed pauseMs data =>
      have fits : data.stop ≤ t.image.length := payload_fits whole read data rfl
      simp only [headerOf, Block.romPayload?, Option.bind_some, headerIn,
        show Tap.headerLength.toNat = 19 from rfl]
      by_cases nineteen : data.length = 19
      · have there : data.offset + data.length ≤ t.image.bytes.size := whole ▸ fits
        have fields : Tap.Header.ofBytes (Vector.ofFn fun i : Fin 17 =>
            (t.image.slice data.offset data.length).getD (1 + i.val) 0) =
              Tap.headerAt t.image (data.offset + 1) := by
          rw [Tap.headerAt]
          congr 2
          funext i
          rw [getD_slice there (by omega), Nat.add_assoc]
        rw [if_pos nineteen, excerpt_eq_ok whole fits]
        show Except.ok _ = _
        rw [fields, getD_slice there (by omega), Nat.add_zero]
        by_cases flag : t.image.byte data.offset = 0
        · rw [if_pos flag, if_pos ⟨nineteen, flag⟩, flag]
        · rw [if_neg flag, if_neg (flag ·.2)]
      · rw [if_neg nineteen, if_neg (nineteen ·.1)]
    | _ => rfl

theorem payload_of_headerOf (whole : t.image.Whole) (read : t.blockAt? o = .ok (some b))
    (carried : t.headerOf b = .ok (some placed)) : b.payload? = some ⟨placed.offset, 19⟩ := by
  rw [headerOf_eq whole read] at carried
  obtain ⟨data, rom, found⟩ := Option.bind_eq_some_iff.1 (Except.ok.inj carried)
  obtain ⟨o, rfl, -, rfl⟩ := headerIn_eq_some_iff.1 found
  exact Block.payload_of_rom rom

end Tape

/-- What is left of a block whose header has been written over: all but what it is called. -/
structure Block.Relabelled (b b' : Block) : Prop where
  offset : b'.offset = b.offset
  size : b'.size = b.size
  payload : b'.payload? = b.payload?
  standard : ∀ c, b = .tzx c → c.kind.tag = .standardSpeed

section Relabelled

variable {image image' : Image} {o : Nat}

theorem Tap.describe_relabelled (front : Image.Same image o image' o 2) :
    (Block.tap (describe image o)).Relabelled (.tap (describe image' o)) := by
  have word : image'.word o = image.word o := front.word (Nat.le_refl 2)
  refine ⟨rfl, ?_, ?_, nofun⟩
  · simp only [Cassette.Block.size, Tap.Block.size, describe, word]
  · simp only [Cassette.Block.payload?, describe, Tap.Block.payloadStart, word]

theorem Tzx.describe_relabelled (front : Image.Same image o image' o 5) :
    (Block.tzx (describe image o .standardSpeed)).Relabelled
      (.tzx (describe image' o .standardSpeed)) := by
  have word : image'.word (o + 3) = image.word (o + 3) := front.word_add (Nat.le_refl 5)
  refine ⟨rfl, ?_, ?_, ?_⟩
  · simp only [Cassette.Block.size, describe_size, bodySize, Nat.add_assoc, word]
  · simp only [Cassette.Block.payload?, describe, kindAt, Kind.data?, Nat.add_assoc, word]
  · rintro _ ⟨⟩
    rfl

/-- In front of the payload of a block of standard speed are its id, pause and length word. -/
theorem Tzx.standardSpeed_offset (whole : image.Whole) {c : Block} {pauseMs : UInt16} {data : Span}
    (read : blockAt? image o = .ok (some c)) (kind : c.kind = .standardSpeed pauseMs data) :
    o + 5 = data.offset := by
  obtain ⟨tag, -, -, -, rfl⟩ := (blockAt?_eq_ok_some_iff whole).1 read
  cases tag
  case standardSpeed => exact congrArg Span.offset (Kind.standardSpeed.inj kind).2
  all_goals exact nomatch kind

variable (whole : image.Whole) (whole' : image'.Whole) (length : image'.length = image.length)
include whole whole' length

theorem Tap.blockAt?_relabelled (front : Image.Same image o image' o 2) {c : Block}
    (read : blockAt? image o = .ok (some c)) :
    ∃ c', blockAt? image' o = .ok (some c') ∧ (Block.tap c).Relabelled (.tap c') := by
  obtain ⟨fits, rfl⟩ := (blockAt?_eq_ok_some_iff whole).1 read
  have relabelled := describe_relabelled front
  have size : (describe image' o).size = (describe image o).size := relabelled.size
  rw [← length, ← size] at fits
  exact ⟨_, (blockAt?_eq_ok_some_iff whole').2 ⟨fits, rfl⟩, relabelled⟩

theorem Tzx.blockAt?_relabelled (front : Image.Same image o image' o 5) {c : Block}
    (read : blockAt? image o = .ok (some c)) (standard : c.kind.tag = .standardSpeed) :
    ∃ c', blockAt? image' o = .ok (some c') ∧ (Block.tzx c).Relabelled (.tzx c') := by
  obtain ⟨tag, known, -, fits, rfl⟩ := (blockAt?_eq_ok_some_iff whole).1 read
  cases tag
  case standardSpeed =>
    have id : image'.byte o = image.byte o := front.first (by omega)
    have relabelled := describe_relabelled front
    have size : (describe image' o .standardSpeed).size = (describe image o .standardSpeed).size :=
      relabelled.size
    rw [← length, ← size] at fits
    refine ⟨_, (blockAt?_eq_ok_some_iff whole').2 ?_, relabelled⟩
    exact ⟨.standardSpeed, id ▸ known, nofun, fits, rfl⟩
  all_goals exact nomatch standard

end Relabelled

/-- A block as it is read again after a header has been written over. -/
inductive Block.Again (image image' : Image) (b : Block) : Block → Prop
  | kept (same : Image.Same image b.offset image' b.offset b.size) : Again image image' b b
  | relabelled {b' : Block} (h : b.Relabelled b') : Again image image' b b'

namespace Block.Again

variable {image image' : Image} {b b' : Block}

theorem offset (again : b.Again image image' b') : b'.offset = b.offset := by
  cases again with
  | kept => rfl
  | relabelled h => exact h.offset

theorem size (again : b.Again image image' b') : b'.size = b.size := by
  cases again with
  | kept => rfl
  | relabelled h => exact h.size

theorem payload (again : b.Again image image' b') : b'.payload? = b.payload? := by
  cases again with
  | kept => rfl
  | relabelled h => exact h.payload

end Block.Again

namespace Tape

open Image

variable {t t' : Tape} {x : Index} {b : Block} {o k : Nat} {placed : PlacedHeader}

/-- The blocks of a tape are where those of another are, and show the same payloads. -/
structure Redrawn (t t' : Tape) : Prop where
  start : t'.start = t.start
  length : t'.length = t.length
  offsetAt : ∀ k, t'.offsetAt k = t.offsetAt k
  again : ∀ (k : Nat) (b : Block), t.scan.blocks[k]? = some b →
    ∃ b', t'.scan.blocks[k]? = some b' ∧ b.Again t.image t'.image b'

def overwritten (t : Tape) (placed : PlacedHeader) (new : Bytes) : Tape :=
  { t with image := { t.image with bytes := patch t.image.bytes placed.offset new } }

/-- A block whose header was written over is still there, with its payload where it was. -/
theorem blockAt?_overwritten (whole : t.image.Whole) (read : t.blockAt? o = .ok (some b))
    (carried : t.headerOf b = .ok (some placed)) {new : Bytes} (size : new.size = 19) :
    ∃ b', (t.overwritten placed new).blockAt? o = .ok (some b') ∧ b.Relabelled b' := by
  have payload := payload_of_headerOf whole read carried
  have start := congrArg (Option.map Tzx.Span.offset) payload
  obtain ⟨-, stop⟩ := payload_of_blockAt? whole read payload
  have fits : o + b.size ≤ t.image.length := (blockAt?_fits whole read).2
  have length : t.image.length = t.image.bytes.size := whole
  have inside : placed.offset + new.size ≤ t.image.bytes.size := by
    simp only [Tzx.Span.stop] at stop
    rw [size]
    omega
  have whole' : (t.overwritten placed new).image.Whole := length.trans (size_patch inside).symm
  -- Nothing in front of the payload is written over.
  have front {count : Nat} (before : o + count = placed.offset) :
      Same t.image o (t.overwritten placed new).image o count :=
    same_patch inside (by omega) (.inl (Nat.le_of_eq before))
  cases format : t.format with
  | tap =>
    obtain ⟨c, found, rfl⟩ := (blockAt?_tap format).1 read
    obtain ⟨-, rfl⟩ := (Tap.blockAt?_eq_ok_some_iff whole).1 found
    obtain ⟨c', found', relabelled⟩ :=
      Tap.blockAt?_relabelled whole whole' rfl (front (Option.some.inj start)) found
    have format' : (t.overwritten placed new).format = .tap := format
    exact ⟨_, (blockAt?_tap format').2 ⟨c', found', rfl⟩, relabelled⟩
  | tzx =>
    obtain ⟨⟨offset, bodySize, kind⟩, found, rfl⟩ := (blockAt?_tzx format).1 read
    cases kind with
    | standardSpeed pauseMs data =>
      have before : o + 5 = placed.offset :=
        (Tzx.standardSpeed_offset whole found rfl).trans (Option.some.inj start)
      obtain ⟨c', found', relabelled⟩ :=
        Tzx.blockAt?_relabelled whole whole' rfl (front before) found rfl
      have format' : (t.overwritten placed new).format = .tzx := format
      exact ⟨_, (blockAt?_tzx format').2 ⟨c', found', rfl⟩, relabelled⟩
    | _ => cases carried

/-! ### The blocks behind and before it -/

/-- Blocks that are read again at the same places, as long as before, are again a row. -/
theorem Row.redrawn {head stop : Nat} {bs : List Block} (row : t.Row head bs stop)
    (again : ∀ o b, b ∈ bs → t.blockAt? o = .ok (some b) →
      ∃ b', t'.blockAt? o = .ok (some b') ∧ b.Again t.image t'.image b') :
    ∃ bs', t'.Row head bs' stop ∧ bs'.map Block.offset = bs.map Block.offset ∧
      ∀ (k : Nat) (b : Block), bs[k]? = some b →
        ∃ b', bs'[k]? = some b' ∧ b.Again t.image t'.image b' := by
  induction row with
  | nil head => exact ⟨[], .nil head, rfl, nofun⟩
  | @cons head stop b bs read rest ih =>
    obtain ⟨b', read', same⟩ := again head b (by simp) read
    obtain ⟨bs', row, offsets, others⟩ := ih fun o b member => again o b (by simp [member])
    rw [← same.size] at row
    refine ⟨b' :: bs', .cons read' row, by rw [List.map_cons, List.map_cons, same.offset, offsets],
      fun k c found => ?_⟩
    cases k with
    | zero =>
      obtain rfl : b = c := Option.some.inj found
      exact ⟨b', rfl, same⟩
    | succ k => exact others k c found

end Tape

/-- An index tells of its blocks only where they start. -/
theorem Index.ofBlocks_congr {a b : List Block} (same : a.map Block.offset = b.map Block.offset) :
    ofBlocks a.toArray = ofBlocks b.toArray := by
  have length : a.length = b.length := by simpa using congrArg List.length same
  have sizes : a.toArray.size = b.toArray.size := by simpa using length
  have marks : (ofBlocks a.toArray).marks = (ofBlocks b.toArray).marks := by
    apply Array.ext
    · simp [ofBlocks, length]
    · intro i here there
      have inside : stride * i < a.length := by
        apply stride_mul_lt
        simpa [ofBlocks] using here
      have at' := congrArg (·[stride * i]?) same
      simp only [List.getElem?_map, List.getElem?_eq_getElem inside,
        List.getElem?_eq_getElem (length ▸ inside)] at at'
      simpa [ofBlocks] using at'
  have count : (ofBlocks a.toArray).count = (ofBlocks b.toArray).count := sizes
  calc ofBlocks a.toArray = ⟨(ofBlocks a.toArray).marks, (ofBlocks a.toArray).count⟩ := rfl
    _ = ofBlocks b.toArray := by rw [marks, count]

theorem Index.lt_of_find {t : Tape} {x : Index} {ordinal : Nat} {b : Block}
    (found : x.find t ordinal = .ok b) : ordinal < x.count := by
  apply Nat.lt_of_not_le
  intro behind
  obtain ⟨_, located, -⟩ := bind_eq_ok_iff.1 found
  rw [locate, if_pos behind] at located
  cases located

namespace Tape

open Image

variable {t t' : Tape} {x : Index} {b : Block} {o k : Nat} {placed : PlacedHeader}

/-- A tape whose blocks are read again where they were has the same index. -/
theorem indexed_redrawn (h : Indexed t x) {image : Image} (whole : image.Whole)
    (length : image.length = t.image.length) (header : Same t.image 0 image 0 t.start)
    (again : ∀ k b, t.scan.blocks[k]? = some b → t.blockAt? (t.offsetAt k) = .ok (some b) →
      ∃ b', { t with image }.blockAt? (t.offsetAt k) = .ok (some b') ∧ b.Again t.image image b') :
    Indexed { t with image } x ∧ t.Redrawn { t with image } := by
  have again' : ∀ o b, b ∈ t.scan.blocks.toList → t.blockAt? o = .ok (some b) →
      ∃ b', { t with image }.blockAt? o = .ok (some b') ∧ b.Again t.image image b' := by
    intro o b member read
    obtain ⟨k, inside, rfl⟩ := List.mem_iff_getElem.1 member
    have found : t.scan.blocks[k]? = some t.scan.blocks.toList[k] := by
      rw [← Array.getElem?_toList, List.getElem?_eq_getElem inside]
    have start := offsetAt_of_found found
    obtain ⟨rfl, -⟩ := blockAt?_fits h.whole read
    rw [← start] at read ⊢
    exact again k _ found read
  obtain ⟨bs, row, offsets, shown⟩ := h.row.redrawn again'
  have scan : { t with image }.scan = ⟨bs.toArray, image.length, none⟩ := by
    have all := row.scanFrom length.symm #[]
    rwa [Array.empty_append] at all
  refine ⟨⟨?_, ?_⟩, rfl, length, fun k => ?_, fun k b found => ?_⟩
  · have image_eq : Image.ofBytes image.bytes = image := by
      rw [ofBytes, ← show image.length = image.bytes.size from whole]
    rw [image_eq]
    exact ofImage_same h whole header
  · simp only [Index.ofTape, scan]
    rw [h.scan_sound.2, Index.ofBlocks_congr offsets]
  · rw [offsetAt, offsetAt, scan]
    exact (offsetIn_congr offsets _ k).trans (congrArg (offsetIn _ · k) length)
  · rw [← Array.getElem?_toList] at found
    simpa only [scan, List.getElem?_toArray] using shown k b found

theorem same_overwritten (h : Indexed t x) {j k : Nat} {c : Block} (other : j ≠ k)
    (there : t.scan.blocks[j]? = some c) (here : t.scan.blocks[k]? = some b)
    (payload : b.payload? = some ⟨placed.offset, 19⟩) {new : Bytes} (size : new.size = 19) :
    Same t.image c.offset (t.overwritten placed new).image c.offset c.size := by
  have length : t.image.length = t.image.bytes.size := h.whole
  obtain ⟨-, read, next⟩ := h.read_of_found here
  obtain ⟨-, -, next'⟩ := h.read_of_found there
  obtain ⟨behind, stop⟩ := payload_of_blockAt? h.whole read payload
  simp only [Tzx.Span.stop] at behind stop
  have last : t.offsetAt (k + 1) ≤ t.image.length := h.offsetAt_le (k + 1)
  have fits : t.offsetAt (j + 1) ≤ t.image.length := h.offsetAt_le (j + 1)
  have apart : t.offsetAt j + c.size ≤ placed.offset ∨
      placed.offset + new.size ≤ t.offsetAt j := by
    rcases Nat.lt_or_gt_of_ne other with before | after
    · have le : t.offsetAt (j + 1) ≤ t.offsetAt k := h.offsetAt_mono before
      exact .inl (by omega)
    · have le : t.offsetAt (k + 1) ≤ t.offsetAt j := h.offsetAt_mono after
      exact .inr (by omega)
  rw [← offsetAt_of_found there]
  exact same_patch (by omega) (by omega) apart

/-- Writing over a header leaves all blocks where they were, and the others as they were. -/
theorem overwritten_indexed (h : Indexed t x) (inside : k < x.count) (found : x.find t k = .ok b)
    (carried : t.headerOf b = .ok (some placed)) {new : Bytes} (size : new.size = 19) :
    Indexed (t.overwritten placed new) x ∧ t.Redrawn (t.overwritten placed new) := by
  have length : t.image.length = t.image.bytes.size := h.whole
  obtain ⟨b', here', read, next⟩ := h.read inside
  obtain rfl : b' = b := Except.ok.inj ((h.find_eq inside read).symm.trans found)
  have payload := payload_of_headerOf h.whole read carried
  obtain ⟨behind, stop⟩ := payload_of_blockAt? h.whole read payload
  simp only [Tzx.Span.stop] at behind stop
  have last : t.offsetAt (k + 1) ≤ t.image.length := h.offsetAt_le (k + 1)
  have within : placed.offset + new.size ≤ t.image.bytes.size := by omega
  have whole : (t.overwritten placed new).image.Whole := length.trans (size_patch within).symm
  have first : t.start ≤ t.offsetAt k := h.offsetAt_zero ▸ h.offsetAt_mono (Nat.zero_le k)
  have header : Same t.image 0 (t.overwritten placed new).image 0 t.start :=
    same_patch within (by omega) (.inl (by omega))
  apply indexed_redrawn h whole rfl header
  intro j c here there
  rcases Nat.decEq j k with other | rfl
  · have same := same_overwritten h other here here' payload size
    rw [offsetAt_of_found here] at there ⊢
    have moved := blockAt?_moved h.whole whole rfl there same
    rw [moved_self h.whole there] at moved
    exact ⟨c, moved, .kept same⟩
  · obtain rfl : b' = c := Option.some.inj (Except.ok.inj (read.symm.trans there))
    obtain ⟨c, read', relabelled⟩ := blockAt?_overwritten h.whole read carried size
    exact ⟨c, read', .relabelled relabelled⟩

/-- What is written inside the measured length does not show whether the file has grown. -/
theorem overwritten_measured (covered : t.image.Covered) {new : Bytes}
    (inside : placed.offset + new.size ≤ t.image.length) :
    (t.overwritten placed new).measured = t.measured.overwritten placed new := by
  have there : t.image.length ≤ t.image.bytes.size := covered
  have size : (t.image.bytes.extract 0 t.image.length).size = t.image.length := by
    rw [Array.size_extract]
    omega
  have bytes : (patch t.image.bytes placed.offset new).extract 0 t.image.length =
      patch (t.image.bytes.extract 0 t.image.length) placed.offset new := by
    apply Array.ext_getElem?
    intro i
    rw [getElem?_patch (by omega), Array.getElem?_extract, Array.getElem?_extract,
      getElem?_patch (by omega), size_patch (by omega), Nat.zero_add]
    by_cases written : placed.offset ≤ i ∧ i < placed.offset + new.size
    · rw [if_pos written, if_pos written, if_pos (by omega)]
    · rw [if_neg written, if_neg written]
  simp only [measured, overwritten, Image.measured, bytes, ofBytes, size_patch (size ▸ inside)]

/-- Renaming writes over one header, and leaves all blocks where they were. -/
theorem rename_indexed (covered : t.image.Covered) (h : Indexed t.measured x) {name : String}
    {came : Renaming} (renamed : t.rename x k name = .ok (t', came)) :
    ∃ placed new, placed.offset + new.size ≤ t.image.length ∧ t' = t.overwritten placed new ∧
      Indexed t'.measured x ∧ t.measured.Redrawn t'.measured := by
  obtain ⟨b, found, renamed⟩ := bind_eq_ok_iff.1 renamed
  obtain ⟨carried?, carried, renamed⟩ := bind_eq_ok_iff.1 renamed
  cases carried? with
  | none => exact nomatch renamed
  | some placed =>
    obtain ⟨image, written, made⟩ := bind_eq_ok_iff.1 renamed
    obtain ⟨rfl, -⟩ := Prod.mk.inj (Except.ok.inj made)
    let new := (placed.header.withName name).payload placed.flag
    have size : new.size = 19 := Tap.Header.size_payload _ _
    have some : 0 < new.size := size ▸ Nat.succ_pos 18
    obtain ⟨inside, rfl⟩ := (overwrite_eq_ok_iff some).1 written
    refine ⟨placed, new, inside, rfl, ?_⟩
    rw [← find_measured covered] at found
    rw [← headerOf_measured covered] at carried
    have there : k < x.count := Index.lt_of_find found
    show Indexed (t.overwritten placed new).measured x ∧
      t.measured.Redrawn (t.overwritten placed new).measured
    rw [overwritten_measured covered inside]
    exact overwritten_indexed h there found carried size

end Tape

end Cassette
