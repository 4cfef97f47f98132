import Cassette.Index
import Cassette.Proofs.Extent

/-! The row of blocks of a tape. `Row` says that blocks follow each other without gaps from
one offset up to another, and a scan without fault finds just the row that reaches the end
(`row_of_scanFrom`, `Row.scanFrom`). On a tape that has been indexed (`Indexed`), `offsetAt`
is where a block of the scan starts, the end of the tape counting as the start of one block
more. Main statement: `Indexed.locate_eq`, the sparse table finds every block where the scan
found it. -/

namespace Cassette

namespace Tape

/-- Blocks that can be read one behind the other from an offset up to another. -/
inductive Row (t : Tape) : Nat → List Block → Nat → Prop
  | nil (head : Nat) : Row t head [] head
  | cons {head stop : Nat} {b : Block} {bs : List Block} (read : t.blockAt? head = .ok (some b))
      (rest : Row t (head + b.size) bs stop) : Row t head (b :: bs) stop

variable {t : Tape} {head stop : Nat} {bs : List Block}

theorem Row.le (row : t.Row head bs stop) : head ≤ stop := by
  induction row with
  | nil => exact Nat.le_refl _
  | cons _ _ ih => exact Nat.le_trans (Nat.le_add_right _ _) ih

/-- A scan without fault has found a row that reaches the end of the tape. -/
theorem row_of_scanFrom (whole : t.image.Whole) (inside : head ≤ t.length) (found : Array Block)
    (sound : (t.scanFrom head found).fault = none) :
    ∃ bs, t.Row head bs t.length ∧ (t.scanFrom head found).blocks = found ++ bs.toArray := by
  fun_induction scanFrom t head found with
  | case1 head found lt fault read => simp at sound
  | case2 head found lt read =>
    exact absurd (length_le_of_blockAt?_none whole read) (Nat.not_le.2 lt)
  | case3 head found lt b read ih =>
    obtain ⟨bs, row, blocks⟩ := ih (blockAt?_fits whole read).2 sound
    exact ⟨b :: bs, .cons read row, by simp [blocks]⟩
  | case4 head found ge =>
    obtain rfl : head = t.length := by omega
    exact ⟨[], .nil _, by simp⟩

/-- A scan goes through a row and on from where the row ends. -/
theorem Row.scanFrom_eq (row : t.Row head bs stop) (inside : stop ≤ t.length)
    (found : Array Block) : t.scanFrom head found = t.scanFrom stop (found ++ bs.toArray) := by
  induction row generalizing found with
  | nil head => simp
  | cons read rest ih =>
    next head stop b bs =>
    have := rest.le
    have := b.size_pos
    rw [Tape.scanFrom, dif_pos (by omega), read]
    simp [ih inside]

/-- A row that reaches the end of the tape is what a scan finds. -/
theorem Row.scanFrom (row : t.Row head bs stop) (ends : stop = t.length) (found : Array Block) :
    t.scanFrom head found = ⟨found ++ bs.toArray, t.length, none⟩ := by
  rw [row.scanFrom_eq (Nat.le_of_eq ends), Tape.scanFrom, dif_neg (by omega), ends]

def offsetIn (bs : List Block) (stop ordinal : Nat) : Nat :=
  match bs[ordinal]? with
  | some b => b.offset
  | none => stop

theorem offsetIn_congr {a b : List Block} (same : a.map Block.offset = b.map Block.offset)
    (stop ordinal : Nat) : offsetIn a stop ordinal = offsetIn b stop ordinal := by
  have there := congrArg (·[ordinal]?) same
  simp only [List.getElem?_map] at there
  unfold offsetIn
  cases first : a[ordinal]? <;> cases second : b[ordinal]? <;> simp_all

theorem Row.offsetIn_zero (whole : t.image.Whole) (row : t.Row head bs stop) :
    offsetIn bs stop 0 = head := by
  cases row with
  | nil => rfl
  | cons read _ => exact (blockAt?_fits whole read).1

/-- Every block of a row can be read where it starts, and the next starts behind it. -/
theorem Row.read (whole : t.image.Whole) (row : t.Row head bs stop) {ordinal : Nat} {b : Block}
    (found : bs[ordinal]? = some b) :
    t.blockAt? (offsetIn bs stop ordinal) = .ok (some b) ∧
      offsetIn bs stop (ordinal + 1) = offsetIn bs stop ordinal + b.size := by
  induction row generalizing ordinal with
  | nil => simp at found
  | cons read rest ih =>
    next head stop first bs =>
    cases ordinal with
    | zero =>
      obtain rfl : first = b := by simpa using found
      have start := (Row.cons read rest).offsetIn_zero whole
      rw [start]
      exact ⟨read, rest.offsetIn_zero whole⟩
    | succ ordinal => exact ih found

/-- Where the block of a number starts; behind the last, the end of the tape. -/
def offsetAt (t : Tape) (ordinal : Nat) : Nat := offsetIn t.scan.blocks.toList t.length ordinal

theorem offsetAt_of_found {ordinal : Nat} {b : Block} (found : t.scan.blocks[ordinal]? = some b) :
    t.offsetAt ordinal = b.offset := by
  simp [offsetAt, offsetIn, found]

theorem of_ofImage {format : Format} {image : Image} (h : ofImage format image = .ok t) :
    t.format = format ∧ t.image = image ∧ t.start ≤ t.length := by
  cases format with
  | tap =>
    obtain rfl := Except.ok.inj h
    exact ⟨rfl, rfl, Nat.zero_le _⟩
  | tzx =>
    obtain ⟨version, read, made⟩ := bind_eq_ok_iff.1 h
    obtain rfl := Except.ok.inj made
    refine ⟨rfl, rfl, ?_⟩
    simp only [Tzx.version] at read
    split at read
    · simp at read
    · next long => exact Nat.not_lt.1 long

end Tape

/-- A tape that has been opened, and the index of its blocks. -/
structure Indexed (t : Tape) (x : Index) : Prop where
  opened : Tape.ofImage t.format (.ofBytes t.image.bytes) = .ok t
  indexed : Index.ofTape t = .ok x

namespace Indexed

variable {t : Tape} {x : Index} {ordinal : Nat} {b : Block}

theorem image_eq (h : Indexed t x) : t.image = .ofBytes t.image.bytes :=
  (Tape.of_ofImage h.opened).2.1

theorem whole (h : Indexed t x) : t.image.Whole := by
  rw [h.image_eq]
  exact Image.whole_ofBytes _

theorem start_le (h : Indexed t x) : t.start ≤ t.length := (Tape.of_ofImage h.opened).2.2

theorem scan_sound (h : Indexed t x) : t.scan.fault = none ∧ x = .ofBlocks t.scan.blocks := by
  have indexed := h.indexed
  simp only [Index.ofTape] at indexed
  split at indexed
  · simp at indexed
  · next sound => exact ⟨sound, (Except.ok.inj indexed).symm⟩

theorem count_eq (h : Indexed t x) : x.count = t.scan.blocks.size := by
  rw [h.scan_sound.2]
  rfl

/-- The blocks of the scan are a row that fills the tape. -/
theorem row (h : Indexed t x) : t.Row t.start t.scan.blocks.toList t.length := by
  obtain ⟨bs, row, blocks⟩ := Tape.row_of_scanFrom h.whole h.start_le #[] h.scan_sound.1
  rw [Tape.scan, Tape.scanAt, blocks]
  simpa using row

theorem offsetAt_zero (h : Indexed t x) : t.offsetAt 0 = t.start := h.row.offsetIn_zero h.whole

theorem offsetAt_of_le (h : Indexed t x) (behind : x.count ≤ ordinal) :
    t.offsetAt ordinal = t.length := by
  rw [h.count_eq] at behind
  rw [Tape.offsetAt, Tape.offsetIn, List.getElem?_eq_none (by simpa using behind)]

/-- Every block below the count can be read where it starts, and the next starts behind it. -/
theorem read (h : Indexed t x) (inside : ordinal < x.count) :
    ∃ b, t.scan.blocks[ordinal]? = some b ∧ t.blockAt? (t.offsetAt ordinal) = .ok (some b) ∧
      t.offsetAt (ordinal + 1) = t.offsetAt ordinal + b.size := by
  rw [h.count_eq] at inside
  have found : t.scan.blocks.toList[ordinal]? = some t.scan.blocks[ordinal] := by
    simp [inside]
  exact ⟨_, by simp [inside], h.row.read h.whole found⟩

theorem read_of_found (h : Indexed t x) (found : t.scan.blocks[ordinal]? = some b) :
    ordinal < x.count ∧ t.blockAt? (t.offsetAt ordinal) = .ok (some b) ∧
      t.offsetAt (ordinal + 1) = t.offsetAt ordinal + b.size := by
  have inside : ordinal < x.count := h.count_eq ▸ (Array.getElem?_eq_some_iff.1 found).1
  obtain ⟨b', found', read⟩ := h.read inside
  obtain rfl : b' = b := Option.some.inj (found'.symm.trans found)
  exact ⟨inside, read⟩

theorem read_of_mem (h : Indexed t x) (member : b ∈ t.scan.blocks.toList) :
    ∃ o, t.blockAt? o = .ok (some b) := by
  obtain ⟨k, inside, rfl⟩ := List.mem_iff_getElem.1 member
  rw [Array.length_toList, ← h.count_eq] at inside
  obtain ⟨b, found, read, -⟩ := h.read inside
  obtain ⟨_, rfl⟩ := Array.getElem?_eq_some_iff.1 found
  exact ⟨_, read⟩

theorem offsetAt_le (h : Indexed t x) (ordinal : Nat) : t.offsetAt ordinal ≤ t.length := by
  rcases Nat.lt_or_ge ordinal x.count with inside | behind
  · obtain ⟨b, -, read, -⟩ := h.read inside
    exact Nat.le_trans (Nat.le_add_right _ _) (Tape.blockAt?_fits h.whole read).2
  · exact Nat.le_of_eq (h.offsetAt_of_le behind)

theorem offsetAt_mono (h : Indexed t x) {first last : Nat} (le : first ≤ last) :
    t.offsetAt first ≤ t.offsetAt last := by
  induction le with
  | refl => exact Nat.le_refl _
  | @step k _ ih =>
    refine Nat.le_trans ih (show t.offsetAt k ≤ t.offsetAt (k + 1) from ?_)
    rcases Nat.lt_or_ge k x.count with inside | behind
    · obtain ⟨b, -, -, next⟩ := h.read inside
      omega
    · have last := h.offsetAt_of_le (Nat.le_succ_of_le behind)
      exact Nat.le_of_eq ((h.offsetAt_of_le behind).trans last.symm)

/-! ### The sparse table -/

theorem skip_eq (h : Indexed t x) {count : Nat} (inside : ordinal + count ≤ x.count) :
    t.skip count (t.offsetAt ordinal) = .ok (t.offsetAt (ordinal + count)) := by
  induction count generalizing ordinal with
  | zero => rfl
  | succ count ih =>
    obtain ⟨b, -, read, next⟩ := h.read (show ordinal < x.count by omega)
    rw [Tape.skip, read, ← Nat.succ_add_eq_add_succ]
    simp only [← next]
    exact ih (by omega)

/-- Every sixteenth block has a mark, which is where it starts. -/
theorem mark_eq (h : Indexed t x) (inside : ordinal < x.count) :
    x.marks[ordinal / Index.stride]? =
      some (t.offsetAt (Index.stride * (ordinal / Index.stride))) := by
  have marked : ordinal / Index.stride < (t.scan.blocks.size + 15) / 16 := by
    rw [← h.count_eq, Index.stride]
    omega
  have first := Index.stride_mul_lt marked
  rw [h.scan_sound.2, Tape.offsetAt_of_found (Array.getElem?_eq_getElem first)]
  simp [Index.ofBlocks, marked]

/-- The sparse table finds every block where the scan found it. -/
theorem locate_eq (h : Indexed t x) (inside : ordinal < x.count) :
    x.locate t ordinal = .ok (t.offsetAt ordinal) := by
  have parts : Index.stride * (ordinal / Index.stride) + ordinal % Index.stride = ordinal :=
    Nat.div_add_mod ordinal Index.stride
  rw [Index.locate, if_neg (Nat.not_le.2 inside), h.mark_eq inside]
  have skipped := h.skip_eq (Nat.le_of_lt (parts.symm ▸ inside))
  rw [parts] at skipped
  simp only [skipped]

/-- The block found is the one that can be read where the scan found it. -/
theorem find_eq (h : Indexed t x) (inside : ordinal < x.count)
    (read : t.blockAt? (t.offsetAt ordinal) = .ok (some b)) : x.find t ordinal = .ok b := by
  simp only [Index.find, h.locate_eq inside, bind, Except.bind, read]
  rfl

theorem find_of_found (h : Indexed t x) (found : t.scan.blocks[ordinal]? = some b) :
    x.find t ordinal = .ok b := by
  obtain ⟨inside, read, -⟩ := h.read_of_found found
  exact h.find_eq inside read

end Indexed

end Cassette
