import Cassette.Proofs.Row

/-! Scanning against reading on. A tape is read from its first block on until there is no more
block or a fault, and the sparse table that one scan makes of it is held against the blocks read.
Main statement: `scan_agrees`, where reading reaches the end the table knows each of the blocks
under its number and no other, and where it ends in a fault there is no table but that fault. -/

namespace Cassette

/-- What a table knows of a tape whose blocks have been read one after the other. -/
structure Index.Lists (x : Index) (t : Tape) (bs : List Block) : Prop where
  count : x.count = bs.length
  marks : ∀ k, x.marks[k]? = (bs[stride * k]?).map Block.offset
  locate : ∀ i b, bs[i]? = some b → x.locate t i = .ok b.offset
  find : ∀ i b, bs[i]? = some b → x.find t i = .ok b
  /-- Wherever the head was, it is left behind the block found. -/
  head : ∀ i b, bs[i]? = some b → ∀ head, x.headAfterFind t i head = b.stop
  behind : ∀ i, bs.length ≤ i → x.locate t i = .error (.noSuchBlock i bs.length) ∧
    x.find t i = .error (.noSuchBlock i bs.length)

/-- Blocks without gaps between two offsets. -/
def Block.Tile : (head : Nat) → List Block → (stop : Nat) → Prop
  | head, [], stop => head = stop
  | head, b :: bs, stop => b.offset = head ∧ Block.Tile b.stop bs stop

namespace Tape

variable {t : Tape} {head stop : Nat} {bs : List Block} {fault : ReadFault}

theorem Row.tile (whole : t.image.Whole) (row : t.Row head bs stop) :
    Block.Tile head bs stop := by
  induction row with
  | nil => rfl
  | cons read _ ih =>
    obtain rfl := (blockAt?_fits whole read).1
    exact ⟨rfl, ih⟩

theorem Row.stop_le (whole : t.image.Whole) (row : t.Row head bs stop) (inside : head ≤ t.length) :
    stop ≤ t.length := by
  induction row with
  | nil => exact inside
  | cons read _ ih => exact ih (blockAt?_fits whole read).2

theorem blockAt?_of_length_le {o : Nat} (behind : t.length ≤ o) : t.blockAt? o = .ok none := by
  have past : t.image.length ≤ o := behind
  unfold blockAt? Tap.blockAt? Tzx.blockAt?
  rw [if_pos past, if_pos past]
  cases t.format <;> rfl

end Tape

open Tape

theorem Index.marks_ofBlocks (bs : List Block) (k : Nat) :
    (ofBlocks bs.toArray).marks[k]? = (bs[stride * k]?).map Block.offset := by
  simp only [ofBlocks, Array.getElem?_ofFn, List.size_toArray, List.getElem_toArray]
  split
  · next marked => rw [List.getElem?_eq_getElem (stride_mul_lt marked), Option.map_some]
  · next past => rw [List.getElem?_eq_none (by unfold stride; omega), Option.map_none]

theorem Index.locate_behind {x : Index} {t : Tape} {i : Nat} (behind : x.count ≤ i) :
    x.locate t i = .error (.noSuchBlock i x.count) ∧
      x.find t i = .error (.noSuchBlock i x.count) := by
  have none : x.locate t i = .error (.noSuchBlock i x.count) := if_pos behind
  refine ⟨none, ?_⟩
  rw [find, none]
  rfl

variable {t : Tape} {x : Index} {stop : Nat} {bs : List Block}

theorem Indexed.starts_of_found (h : Indexed t x) {i : Nat} {b : Block}
    (found : t.scan.blocks.toList[i]? = some b) :
    i < x.count ∧ t.offsetAt i = b.offset ∧ t.blockAt? (t.offsetAt i) = .ok (some b) := by
  rw [Array.getElem?_toList] at found
  obtain ⟨inside, read, -⟩ := h.read_of_found found
  exact ⟨inside, offsetAt_of_found found, read⟩

/-- The index of a tape lists the blocks that the scan found. -/
theorem Indexed.lists (h : Indexed t x) : x.Lists t t.scan.blocks.toList where
  count := by rw [h.count_eq, Array.length_toList]
  marks k := by rw [h.scan_sound.2, ← Index.marks_ofBlocks, Array.toArray_toList]
  locate i b found := by
    obtain ⟨inside, start, -⟩ := h.starts_of_found found
    rw [h.locate_eq inside, start]
  find i b found := by
    obtain ⟨inside, -, read⟩ := h.starts_of_found found
    exact h.find_eq inside read
  head i b found head := by
    obtain ⟨inside, start, read⟩ := h.starts_of_found found
    rw [start] at read
    simp only [Index.headAfterFind, h.locate_eq inside, start, read, headAfter, Block.stop]
  behind i past := by
    have count : t.scan.blocks.toList.length = x.count := by rw [h.count_eq, Array.length_toList]
    rw [count] at past ⊢
    exact Index.locate_behind past

/-- A tape is read from its first block on until there is none. Then it has an index, which lists
just the blocks read, and these leave no byte of the tape out. If a fault ended the reading, then
the same fault is all that indexing gives. -/
theorem scan_agrees (opened : Tape.ofImage t.format (.ofBytes t.image.bytes) = .ok t)
    (row : t.Row t.start bs stop) :
    (t.blockAt? stop = .ok none →
      ∃ x, Index.ofTape t = .ok x ∧ x.Lists t bs ∧ Block.Tile t.start bs t.length) ∧
    ∀ fault, t.blockAt? stop = .error fault → Index.ofTape t = .error (.ofRead fault) := by
  obtain ⟨-, image, start⟩ := Tape.of_ofImage opened
  have whole : t.image.Whole := by
    rw [image]
    exact Image.whole_ofBytes _
  have inside := row.stop_le whole start
  constructor
  · intro last
    obtain rfl : stop = t.length := Nat.le_antisymm inside (length_le_of_blockAt?_none whole last)
    have scanned : t.scan = ⟨bs.toArray, t.length, none⟩ := by
      simpa [scan, scanAt] using row.scanFrom rfl #[]
    have indexed : Index.ofTape t = .ok (.ofBlocks t.scan.blocks) := by
      rw [Index.ofTape, scanned]
    have lists := (Indexed.mk opened indexed).lists
    rw [scanned] at indexed lists
    exact ⟨_, indexed, lists, row.tile whole⟩
  · intro fault faulty
    have within : stop < t.length := by
      rcases Nat.lt_or_ge stop t.length with within | past
      · exact within
      · rw [blockAt?_of_length_le past] at faulty
        cases faulty
    have scanned : t.scan = ⟨bs.toArray, stop, some fault⟩ := by
      rw [scan, scanAt, row.scanFrom_eq inside, Tape.scanFrom, dif_pos within, faulty]
      simp
    rw [Index.ofTape, scanned]

/-- An empty block behind one of a byte, and the same with a byte too many. -/
theorem scan_agrees_two :
    let bytes : Bytes := #[1, 0, 0xA1, 0, 0]
    let t : Tape := ⟨.tap, .ofBytes bytes, none⟩
    let t' : Tape := ⟨.tap, .ofBytes (bytes.push 7), none⟩
    let bs : List Block := [.tap ⟨0, 1, some 0xA1, none⟩, .tap ⟨3, 0, none, none⟩]
    (∃ x, Index.ofTape t = .ok x ∧ x.Lists t bs ∧ Block.Tile 0 bs 5) ∧
      Index.ofTape t' = .error .cutShort := by
  intro bytes t t' bs
  have row : t.Row 0 bs 5 := .cons rfl (.cons rfl (.nil 5))
  have row' : t'.Row 0 bs 5 := .cons rfl (.cons rfl (.nil 5))
  exact ⟨(scan_agrees rfl row).1 rfl, (scan_agrees rfl row').2 _ rfl⟩

end Cassette
