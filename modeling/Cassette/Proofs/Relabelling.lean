import Cassette.Proofs.Framing
import Cassette.Proofs.Renaming

/-! What renaming writes, byte for byte. A block carries a header if its payload is one of nineteen
bytes with flag zero, whichever format it is in (`Tape.headerOf_eq`), and of these bytes only the
ten of the name and the checksum come out different (`getElem?_relabelled`), so the block is read
again with nothing but its name changed. Main statement: `rename_exact`. -/

namespace Cassette

open Image

/-! ### Names -/

def Printable (c : Char) : Prop := 0x20 ≤ c.toNat ∧ c.toNat ≤ 0x7E

instance (c : Char) : Decidable (Printable c) := inferInstanceAs (Decidable (_ ∧ _))

/-- A name as it is stored: its first ten characters, with question marks for those that cannot be
stored, filled up with blanks. -/
def storedName (name : String) : List UInt8 :=
  ((name.toList.take 10).map fun c => if Printable c then UInt8.ofNat c.toNat else 0x3F).rightpad
    10 0x20

namespace Tap.Header

variable {image : Image} {o i : Nat} {name : String}

theorem length_storedName (name : String) : (storedName name).length = 10 := by
  simp only [storedName, List.rightpad, List.length_append, List.length_map, List.length_take,
    List.length_replicate]
  omega

theorem toList_nameField (name : String) : (nameField name).toList = storedName name := by
  apply List.ext_getElem
  · rw [Vector.length_toList, length_storedName]
  · intro i inside _
    replace inside : i < 10 := by simpa using inside
    simp only [nameField, storedName, List.rightpad, Vector.getElem_toList, Vector.getElem_ofFn,
      List.getElem_append, List.getElem_map, List.getElem_take, List.getElem_replicate,
      List.length_map, List.length_take]
    by_cases short : i < name.toList.length
    · rw [dif_pos (by omega), List.getElem?_eq_getElem short]
      rfl
    · rw [dif_neg (by omega), List.getElem?_eq_none (Nat.not_lt.1 short)]
      rfl

theorem withName_withName (h : Header) (name : String) :
    (h.withName name).withName name = h.withName name := rfl

theorem byteList_withName (h : Header) (name : String) :
    (h.withName name).byteList = h.byteList.take 1 ++ storedName name ++ h.byteList.drop 11 := by
  have ten : h.name.toList.length = 10 := Vector.length_toList
  simp only [byteList, withName, toList_nameField, List.take_succ_cons, List.take_zero,
    List.drop_succ_cons, List.cons_append, List.nil_append]
  rw [List.drop_append_of_le_length (Nat.le_of_eq ten.symm),
    List.drop_of_length_le (Nat.le_of_eq ten), List.nil_append]

theorem byteList_headerAt (image : Image) (o : Nat) :
    (headerAt image o).byteList = (List.range' 0 17).map fun i => image.byte (o + i) := by
  have bytes := congrArg Vector.toList (toBytes_ofBytes
    (Vector.ofFn fun i : Fin 17 => image.byte (o + i.val)))
  rw [Vector.toList_ofFn] at bytes
  exact bytes

theorem toList_payload (h : Header) (flag : UInt8) :
    (h.payload flag).toList = flag :: (h.byteList ++ [checksum flag h.byteList]) := by
  simp [payload, toBytes]

def relabelled (image : Image) (o : Nat) (name : String) : Bytes :=
  ((headerAt image (o + 1)).withName name).payload 0

def relabelledSum (image : Image) (o : Nat) (name : String) : UInt8 :=
  checksum 0 ((headerAt image (o + 1)).withName name).byteList

theorem size_relabelled : (relabelled image o name).size = 19 := size_payload _ _

/-- All but the name and the checksum are as they were. -/
theorem getElem?_relabelled (flag : image.byte o = 0) (inside : i < 19) :
    (relabelled image o name)[i]? =
      if 2 ≤ i ∧ i < 12 then (storedName name)[i - 2]?
      else if i = 18 then some (relabelledSum image o name) else some (image.byte (o + i)) := by
  have stored := length_storedName name
  have parts : (relabelled image o name).toList =
      [image.byte o, image.byte (o + 1)] ++ (storedName name ++
        ((List.range' 12 6).map (fun i => image.byte (o + i)) ++
          [relabelledSum image o name])) := by
    rw [relabelled, toList_payload, relabelledSum]
    generalize checksum _ _ = sum
    rw [byteList_withName, byteList_headerAt, flag]
    simp [List.range', Nat.add_assoc]
  rw [← Array.getElem?_toList, parts]
  rcases Nat.lt_or_ge i 2 with front | behind
  · rw [List.getElem?_append_left front, if_neg (by omega), if_neg (by omega)]
    match i, front with
    | 0, _ => rfl
    | 1, _ => rfl
  rw [List.getElem?_append_right behind, List.length_cons, List.length_singleton]
  rcases Nat.lt_or_ge i 12 with within | behind'
  · rw [if_pos ⟨behind, within⟩, List.getElem?_append_left (by omega)]
  rw [if_neg (by omega), List.getElem?_append_right (by omega), stored]
  rcases Nat.lt_or_ge i 18 with fields | last
  · rw [List.getElem?_append_left (by simp; omega), if_neg (by omega), List.getElem?_map,
      List.getElem?_range' (by omega), Option.map_some,
      show o + (12 + 1 * (i - (1 + 1) - 10)) = o + i by omega]
  · obtain rfl : i = 18 := by omega
    rfl

end Tap.Header

/-! ### Another name -/

/-- A block under another name; only in a TAP block is the name part of the block. -/
def Block.withName (name : String) : Block → Block
  | .tap b => .tap { b with header := b.header.map (·.withName name) }
  | .tzx b => .tzx b

@[simp] theorem Block.romPayload?_withName (name : String) (b : Block) :
    (b.withName name).romPayload? = b.romPayload? := by
  cases b <;> rfl

namespace Tape

variable {t : Tape} {x : Index} {b c : Block} {data : Tzx.Span} {name : String} {o p k i : Nat}

theorem headerIn_same {t' : Tape}
    (same : Same t.image data.offset t'.image data.offset data.length) :
    t'.headerIn data = t.headerIn data := by
  by_cases nineteen : data.length = 19
  · have byte {i : Nat} (inside : i < 19) :
        t'.image.byte (data.offset + i) = t.image.byte (data.offset + i) :=
      same.byte i (nineteen ▸ inside)
    have first : t'.image.byte data.offset = t.image.byte data.offset := byte (i := 0) (by omega)
    have fields : Tap.headerAt t'.image (data.offset + 1) =
        Tap.headerAt t.image (data.offset + 1) := by
      rw [Tap.headerAt, Tap.headerAt]
      congr 2
      funext i
      rw [Nat.add_assoc, byte (by omega)]
    rw [headerIn, headerIn, first, fields]
  · rw [headerIn, headerIn, if_neg (nineteen ·.1), if_neg (nineteen ·.1)]

@[irreducible] def relabelled (t : Tape) (o : Nat) (name : String) : Tape :=
  t.overwritten ⟨o, 0, Tap.headerAt t.image (o + 1)⟩ (Tap.Header.relabelled t.image o name)

theorem relabelled_eq (t : Tape) (o : Nat) (name : String) : t.relabelled o name =
    t.overwritten ⟨o, 0, Tap.headerAt t.image (o + 1)⟩ (Tap.Header.relabelled t.image o name) := by
  rw [relabelled]

theorem length_relabelled : (t.relabelled o name).image.length = t.image.length := by
  rw [relabelled_eq, overwritten]

theorem format_relabelled : (t.relabelled o name).format = t.format := by
  rw [relabelled_eq, overwritten]

theorem bytes_relabelled : (t.relabelled o name).image.bytes =
    patch t.image.bytes o (Tap.Header.relabelled t.image o name) := by
  rw [relabelled_eq, overwritten]

theorem relabelled_eq_self (same : (t.relabelled o name).image.bytes = t.image.bytes) :
    t.relabelled o name = t := by
  simp only [relabelled_eq, overwritten] at same ⊢
  rw [same]

section Relabelled

variable (fits : o + 19 ≤ t.image.bytes.size) (flag : t.image.byte o = 0)
include fits

theorem size_relabelled : (t.relabelled o name).image.bytes.size = t.image.bytes.size := by
  rw [bytes_relabelled, size_patch]
  rw [Tap.Header.size_relabelled]
  exact fits

theorem whole_relabelled (whole : t.image.Whole) : (t.relabelled o name).image.Whole := by
  unfold Whole at whole ⊢
  rw [size_relabelled fits, length_relabelled, whole]

theorem slice_relabelled : (t.relabelled o name).image.slice o 19 =
    Tap.Header.relabelled t.image o name := by
  have size : (Tap.Header.relabelled t.image o name).size = 19 := Tap.Header.size_relabelled
  apply Array.ext_getElem?
  intro i
  rw [slice, bytes_relabelled, Array.getElem?_extract, size_patch (by omega),
    getElem?_patch (by omega), size]
  by_cases inside : i < 19
  · rw [if_pos (by omega), if_pos (by omega), Nat.add_sub_cancel_left]
  · rw [if_neg (by omega), Array.getElem?_eq_none (by omega)]

include flag

/-- Only the name and the checksum are different. -/
theorem getElem?_relabelled (i : Nat) : (t.relabelled o name).image.bytes[i]? =
    if o + 2 ≤ i ∧ i < o + 12 then (storedName name)[i - (o + 2)]?
    else if i = o + 18 then some (Tap.Header.relabelledSum t.image o name)
    else t.image.bytes[i]? := by
  have size : (Tap.Header.relabelled t.image o name).size = 19 := Tap.Header.size_relabelled
  rw [bytes_relabelled, getElem?_patch (by omega), size]
  by_cases written : o ≤ i ∧ i < o + 19
  · have there : t.image.bytes[i]? = some (t.image.byte i) := by
      rw [byte, Array.getD_eq_getD_getElem?, Array.getElem?_eq_getElem (by omega), Option.getD_some]
    rw [if_pos written, Tap.Header.getElem?_relabelled flag (by omega),
      Nat.add_sub_cancel' written.1, there, Nat.sub_sub]
    have name_iff : 2 ≤ i - o ∧ i - o < 12 ↔ o + 2 ≤ i ∧ i < o + 12 := by omega
    have sum_iff : i - o = 18 ↔ i = o + 18 := by omega
    simp only [name_iff, sum_iff]
  · rw [if_neg written, if_neg (by omega), if_neg (by omega)]

theorem byte_relabelled (apart : ¬ (o + 2 ≤ i ∧ i < o + 12)) (apart' : i ≠ o + 18) :
    (t.relabelled o name).image.byte i = t.image.byte i := by
  rw [byte, byte, Array.getD_eq_getD_getElem?, Array.getD_eq_getD_getElem?,
    getElem?_relabelled fits flag, if_neg apart, if_neg apart']

theorem word_relabelled (apart : i + 2 ≤ o + 2 ∨ o + 12 ≤ i ∧ i + 2 ≤ o + 18) :
    (t.relabelled o name).image.word i = t.image.word i := by
  simp only [word, number]
  rw [byte_relabelled fits flag (by omega) (by omega),
    byte_relabelled fits flag (by omega) (by omega)]

theorem byte_name (inside : i < 10) :
    (t.relabelled o name).image.byte (o + 2 + i) = (Tap.Header.nameField name)[i] := by
  have stored : (storedName name)[i]? = some (Tap.Header.nameField name)[i] := by
    rw [← Tap.Header.toList_nameField, List.getElem?_eq_getElem (by simpa using inside),
      Vector.getElem_toList]
  rw [byte, Array.getD_eq_getD_getElem?, getElem?_relabelled fits flag, if_pos (by omega),
    Nat.add_sub_cancel_left, stored, Option.getD_some]

theorem slice_name (whole : t.image.Whole) :
    ((t.relabelled o name).image.slice (o + 2) 10).toList = storedName name := by
  have whole' : (t.relabelled o name).image.Whole := whole_relabelled fits whole
  have inside : o + 2 + 10 ≤ (t.relabelled o name).image.length := by
    rw [whole', size_relabelled fits]
    exact Nat.le_trans (by omega) fits
  rw [toList_slice whole' inside, ← Tap.Header.toList_nameField]
  apply List.ext_getElem
  · rw [List.length_map, List.length_range', Vector.length_toList]
  · intro i _ below
    rw [List.getElem_map, List.getElem_range', Vector.getElem_toList, Nat.zero_add, Nat.one_mul,
      byte_name fits flag (by simpa using below)]

theorem headerAt_relabelled : Tap.headerAt (t.relabelled o name).image (o + 1) =
    (Tap.headerAt t.image (o + 1)).withName name := by
  have named : Vector.ofFn (fun i : Fin 10 =>
      (t.relabelled o name).image.byte (o + 1 + (i.val + 1))) = Tap.Header.nameField name := by
    apply Vector.ext
    intro i inside
    rw [Vector.getElem_ofFn, ← byte_name fits flag inside]
    show byte _ (o + 1 + (i + 1)) = _
    rw [show o + 1 + (i + 1) = o + 2 + i by omega]
  have kept (i : Nat) (apart : i = 0 ∨ 11 ≤ i ∧ i < 17) :
      (t.relabelled o name).image.byte (o + 1 + i) = t.image.byte (o + 1 + i) :=
    byte_relabelled fits flag (by omega) (by omega)
  simp only [Tap.headerAt, Tap.Header.ofBytes, Tap.Header.withName, Vector.getElem_ofFn, named,
    kept 0 (by omega), kept 11 (by omega), kept 12 (by omega), kept 13 (by omega),
    kept 14 (by omega), kept 15 (by omega), kept 16 (by omega)]

end Relabelled

/-- In front of a header is its length word, so a TAP block has nothing but another name. -/
theorem tap_describe_relabelled (fits : p + 2 + 19 ≤ t.image.bytes.size)
    (flag : t.image.byte (p + 2) = 0) : Tap.describe (t.relabelled (p + 2) name).image p =
      { Tap.describe t.image p with
        header := (Tap.describe t.image p).header.map (·.withName name) } := by
  have word : (t.relabelled (p + 2) name).image.word p = t.image.word p :=
    word_relabelled fits flag (.inl (Nat.le_add_right (p + 2) 2))
  have byte : (t.relabelled (p + 2) name).image.byte (p + 2) = t.image.byte (p + 2) :=
    byte_relabelled fits flag (by omega) (by omega)
  have header : Tap.headerAt (t.relabelled (p + 2) name).image (p + 3) =
      (Tap.headerAt t.image (p + 3)).withName name := headerAt_relabelled fits flag
  simp only [Tap.describe, word, byte, header,
    apply_ite (Option.map fun h : Tap.Header => h.withName name), Option.map_some, Option.map_none]

theorem tzx_describe_relabelled (fits : p + 5 + 19 ≤ t.image.bytes.size)
    (flag : t.image.byte (p + 5) = 0) :
    Tzx.describe (t.relabelled (p + 5) name).image p .standardSpeed =
      Tzx.describe t.image p .standardSpeed := by
  have pause : (t.relabelled (p + 5) name).image.word (p + 1) = t.image.word (p + 1) :=
    word_relabelled fits flag (.inl (by omega))
  have length : (t.relabelled (p + 5) name).image.word (p + 1 + 2) = t.image.word (p + 1 + 2) :=
    word_relabelled fits flag (.inl (by omega))
  simp only [Tzx.describe, Tzx.bodySize, Tzx.kindAt, pause, length]

/-- The block with the header is read again, under its new name. -/
theorem blockAt?_withName (whole : t.image.Whole) (fits : o + 19 ≤ t.image.bytes.size)
    (flag : t.image.byte o = 0) (read : t.blockAt? p = .ok (some b))
    (rom : b.romPayload? = some ⟨o, 19⟩) :
    (t.relabelled o name).blockAt? p = .ok (some (b.withName name)) := by
  have whole' : (t.relabelled o name).image.Whole := whole_relabelled fits whole
  cases format : t.format with
  | tap =>
    obtain ⟨c, found, rfl⟩ := (blockAt?_tap format).1 read
    obtain ⟨inside, rfl⟩ := (Tap.blockAt?_eq_ok_some_iff whole).1 found
    obtain ⟨rfl, -⟩ := Tzx.Span.mk.inj (Option.some.inj rom)
    refine (blockAt?_tap (format_relabelled.trans format)).2 ⟨_, ?_, rfl⟩
    rw [Tap.blockAt?_eq_ok_some_iff whole', length_relabelled]
    exact ⟨inside, (tap_describe_relabelled fits flag).symm⟩
  | tzx =>
    obtain ⟨c, found, rfl⟩ := (blockAt?_tzx format).1 read
    obtain ⟨tag, known, -, inside, rfl⟩ := (Tzx.blockAt?_eq_ok_some_iff whole).1 found
    cases tag
    case standardSpeed =>
      obtain ⟨rfl, -⟩ := Tzx.Span.mk.inj (Option.some.inj rom)
      refine (blockAt?_tzx (format_relabelled.trans format)).2 ⟨_, ?_, rfl⟩
      rw [Tzx.blockAt?_eq_ok_some_iff whole', length_relabelled,
        byte_relabelled fits flag (by omega) (by omega)]
      exact ⟨.standardSpeed, known, (by rintro ⟨⟩), inside,
        (tzx_describe_relabelled fits flag).symm⟩
    all_goals cases rom

/-! ### Blocks with a header -/

/-- Block `k` carries a header, whose flag is at `o`. -/
structure Headed (t : Tape) (k : Nat) (b : Block) (o : Nat) : Prop where
  found : t.scan.blocks[k]? = some b
  rom : b.romPayload? = some ⟨o, 19⟩
  flag : t.image.byte o = 0

namespace Headed

variable (here : t.Headed k b o) (h : Indexed t x)
include here h

theorem fits : o + 19 ≤ t.image.bytes.size := by
  obtain ⟨-, read, -⟩ := h.read_of_found here.found
  exact h.whole ▸ payload_fits h.whole read _ (Block.payload_of_rom here.rom)

theorem carried : t.headerOf b = .ok (some ⟨o, 0, Tap.headerAt t.image (o + 1)⟩) := by
  obtain ⟨-, read, -⟩ := h.read_of_found here.found
  rw [headerOf_eq h.whole read, here.rom, Option.bind_some,
    headerIn_eq_some_iff.2 ⟨o, rfl, here.flag, rfl⟩]

/-- Under another name the tape has the same index, and its blocks where they were. -/
theorem indexed : Indexed (t.relabelled o name) x ∧ t.Redrawn (t.relabelled o name) := by
  obtain ⟨inside, -⟩ := h.read_of_found here.found
  rw [relabelled_eq]
  exact overwritten_indexed h inside (h.find_of_found here.found) (here.carried h)
    Tap.Header.size_relabelled

theorem same_other {j : Nat} (other : j ≠ k) (there : t.scan.blocks[j]? = some c) :
    Same t.image c.offset (t.relabelled o name).image c.offset c.size := by
  have payload : b.payload? = some ⟨o, 19⟩ := Block.payload_of_rom here.rom
  rw [relabelled_eq]
  exact same_overwritten h other there here.found payload Tap.Header.size_relabelled

/-- Under another name the tape has the same blocks, but for that name. -/
theorem blocks : (t.relabelled o name).scan.blocks =
    t.scan.blocks.modify k (Block.withName name) := by
  obtain ⟨h', redrawn⟩ : Indexed (t.relabelled o name) x ∧ t.Redrawn (t.relabelled o name) :=
    here.indexed h
  apply Array.ext_getElem?
  intro j
  rw [Array.getElem?_modify]
  cases there : t.scan.blocks[j]? with
  | none =>
    have behind : x.count ≤ j := by
      rw [h.count_eq]
      exact Array.getElem?_eq_none_iff.1 there
    rw [h'.count_eq] at behind
    rw [Array.getElem?_eq_none behind]
    split <;> rfl
  | some c =>
    obtain ⟨below, read, -⟩ := h.read_of_found there
    obtain ⟨c', found', read', -⟩ := h'.read below
    rw [redrawn.offsetAt] at read'
    have again : (t.relabelled o name).blockAt? (t.offsetAt j) =
        .ok (some (if k = j then c.withName name else c)) := by
      split
      · next same =>
        obtain rfl : b = c := Option.some.inj (here.found.symm.trans (same ▸ there))
        exact blockAt?_withName h.whole (here.fits h) here.flag read here.rom
      · next other =>
        have same : Same t.image c.offset (t.relabelled o name).image c.offset c.size :=
          here.same_other h (Ne.symm other) there
        rw [← offsetAt_of_found there] at same
        have moved := blockAt?_moved h.whole h'.whole format_relabelled read same
        rwa [moved_self h.whole read] at moved
    rw [found', Option.some.inj (Except.ok.inj (read'.symm.trans again))]
    split <;> rfl

theorem found_other {j : Nat} (other : j ≠ k) (there : t.scan.blocks[j]? = some c) :
    (t.relabelled o name).scan.blocks[j]? = some c := by
  rw [here.blocks h, Array.getElem?_modify, if_neg (Ne.symm other), there]

theorem again : (t.relabelled o name).Headed k (b.withName name) o where
  found := by rw [here.blocks h, Array.getElem?_modify, if_pos rfl, here.found, Option.map_some]
  rom := by rw [Block.romPayload?_withName, here.rom]
  flag := by rw [byte_relabelled (here.fits h) here.flag (by omega) (by omega), here.flag]

theorem relabelled_twice : (t.relabelled o name).relabelled o name = t.relabelled o name := by
  have sum : Tap.Header.relabelledSum (t.relabelled o name).image o name =
      Tap.Header.relabelledSum t.image o name := by
    rw [Tap.Header.relabelledSum, headerAt_relabelled (here.fits h) here.flag,
      Tap.Header.withName_withName, Tap.Header.relabelledSum]
  apply relabelled_eq_self
  apply Array.ext_getElem?
  intro i
  rw [getElem?_relabelled ((here.again h).fits (here.indexed h).1) (here.again h).flag, sum,
    getElem?_relabelled (here.fits h) here.flag]
  split
  · rfl
  · split <;> rfl

theorem headerOf_other {j : Nat} (other : j ≠ k) (there : t.scan.blocks[j]? = some c) :
    (t.relabelled o name).headerOf c = t.headerOf c := by
  have h' : Indexed (t.relabelled o name) x := (here.indexed h).1
  have there' : (t.relabelled o name).scan.blocks[j]? = some c := here.found_other h other there
  obtain ⟨-, read, -⟩ := h.read_of_found there
  obtain ⟨-, read', -⟩ := h'.read_of_found there'
  rw [headerOf_eq h.whole read, headerOf_eq h'.whole read']
  cases rom : c.romPayload? with
  | none => rw [Option.bind_none, Option.bind_none]
  | some data =>
    obtain ⟨behind, stop⟩ := payload_of_blockAt? h.whole read (Block.payload_of_rom rom)
    have same : Same t.image c.offset (t.relabelled o name).image c.offset c.size :=
      here.same_other h other there
    rw [← offsetAt_of_found there] at same
    rw [Option.bind_some, Option.bind_some,
      headerIn_same (same.part (Nat.le_of_lt behind) (Nat.le_of_eq stop) rfl)]

theorem rename_eq : t.rename x k name =
    .ok (t.relabelled o name, if Tap.Header.nameFits name then .whole else .cut) := by
  have inside : o + (Tap.Header.relabelled t.image o name).size ≤ t.image.length := by
    rw [Tap.Header.size_relabelled]
    exact h.whole ▸ here.fits h
  have some : 0 < (Tap.Header.relabelled t.image o name).size := by
    rw [Tap.Header.size_relabelled]
    omega
  have written : t.image.overwrite o
      (((Tap.headerAt t.image (o + 1)).withName name).payload 0) =
        .ok (t.relabelled o name).image :=
    (overwrite_eq_ok_iff some).2 ⟨inside, by rw [relabelled_eq, overwritten]⟩
  have image : { t with image := (t.relabelled o name).image } = t.relabelled o name := by
    rw [relabelled_eq, overwritten]
  simp only [rename, h.find_of_found here.found, here.carried h, written, image, bind, Except.bind]
  rfl

end Headed

theorem headerOf_bare (h : Indexed t x) (found : t.scan.blocks[k]? = some b)
    (bare : ∀ o, ¬ t.Headed k b o) : t.headerOf b = .ok none := by
  obtain ⟨-, read, -⟩ := h.read_of_found found
  rw [headerOf_eq h.whole read, Except.ok.injEq, Option.eq_none_iff_forall_ne_some]
  intro placed carried
  obtain ⟨data, rom, carried⟩ := Option.bind_eq_some_iff.1 carried
  obtain ⟨o, rfl, flag, -⟩ := headerIn_eq_some_iff.1 carried
  exact bare o ⟨found, rom, flag⟩

theorem rename_bare (h : Indexed t x) (found : t.scan.blocks[k]? = some b)
    (bare : ∀ o, ¬ t.Headed k b o) : t.rename x k name = .error (.nameless k) := by
  simp only [rename, h.find_of_found found, headerOf_bare h found bare, bind, Except.bind]

theorem rename_behind (behind : x.count ≤ k) :
    t.rename x k name = .error (.noSuchBlock k x.count) := by
  simp only [rename, Index.find, Index.locate, if_pos behind, bind, Except.bind]

theorem rename_cases (h : Indexed t x) (k : Nat) (name : String) :
    (∃ b o, t.Headed k b o ∧ t.rename x k name =
      .ok (t.relabelled o name, if Tap.Header.nameFits name then .whole else .cut)) ∨
    (k < x.count ∧ (∀ b o, ¬ t.Headed k b o) ∧ t.rename x k name = .error (.nameless k)) ∨
    (x.count ≤ k ∧ t.rename x k name = .error (.noSuchBlock k x.count)) := by
  rcases Nat.lt_or_ge k x.count with inside | behind
  · obtain ⟨b, found, -⟩ := h.read inside
    by_cases headed : ∃ o, t.Headed k b o
    · obtain ⟨o, here⟩ := headed
      exact .inl ⟨b, o, here, here.rename_eq h⟩
    · replace headed : ∀ o, ¬ t.Headed k b o := not_exists.1 headed
      refine .inr (.inl ⟨inside, fun b' o here => ?_, rename_bare h found headed⟩)
      obtain rfl : b = b' := Option.some.inj (found.symm.trans here.found)
      exact headed o here
  · exact .inr (.inr ⟨behind, rename_behind behind⟩)

/-! ### Step by step -/

abbrev Writing := ExceptT Fault (StateM Image)

namespace Writing

variable {α β : Type}

def reading (read : Image → Except Fault α) : Writing α := fun image => (read image, image)

def overwriting (offset : Nat) (new : Bytes) : Writing Unit := fun image =>
  match image.overwrite offset new with
  | .error fault => (.error fault, image)
  | .ok image => (.ok (), image)

theorem run_bind (m : Writing α) (f : α → Writing β) (image : Image) :
    (m >>= f).run image =
      match m.run image with
      | (.error fault, image) => (.error fault, image)
      | (.ok a, image) => (f a).run image := by
  have split : (m >>= f).run image =
      (ExceptT.bindCont f (m.run image).1).run (m.run image).2 := rfl
  rw [split]
  rcases m.run image with ⟨_ | _, _⟩ <;> rfl

theorem reading_run (read : Image → Except Fault α) (image : Image) :
    (reading read).run image = (read image, image) := rfl

theorem overwriting_run (o : Nat) (new : Bytes) (image : Image) :
    (overwriting o new).run image =
      match image.overwrite o new with
      | .error fault => (.error fault, image)
      | .ok image => (.ok (), image) := rfl

end Writing

/-- Renaming on the image itself: the block is found, its header read and then written over. -/
def renameInPlace (t : Tape) (x : Index) (ordinal : Nat) (name : String) : Writing Renaming := do
  let b ← Writing.reading fun image => x.find { t with image } ordinal
  match ← Writing.reading fun image => { t with image }.headerOf b with
  | none => throw (.nameless ordinal)
  | some placed =>
    Writing.overwriting placed.offset ((placed.header.withName name).payload placed.flag)
    return if Tap.Header.nameFits name then .whole else .cut

/-- Writing is the last step that can fail, so a fault leaves the image as it was. -/
theorem renameInPlace_run (t : Tape) (x : Index) (k : Nat) (name : String) :
    (t.renameInPlace x k name).run t.image =
      match t.rename x k name with
      | .error fault => (.error fault, t.image)
      | .ok (t', came) => (.ok came, t'.image) := by
  have ok_bind {α β : Type} (a : α) (f : α → Except Fault β) : (Except.ok a >>= f) = f a := rfl
  simp only [renameInPlace, rename, Writing.run_bind, Writing.reading_run]
  cases x.find t k with
  | error fault => rfl
  | ok b =>
    simp only [ok_bind]
    cases t.headerOf b with
    | error fault => rfl
    | ok placed? =>
      simp only [ok_bind]
      cases placed? with
      | none => rfl
      | some placed =>
        simp only [Writing.run_bind, Writing.overwriting_run]
        cases t.image.overwrite placed.offset ((placed.header.withName name).payload placed.flag)
        <;> rfl

/-! ### What a new name changes -/

/-- A tape on which block `k`, the block `b` with a header, has been given another name. -/
structure Renamed (t t' : Tape) (x : Index) (k : Nat) (b : Block) (placed : PlacedHeader)
    (name : String) : Prop where
  found : t.scan.blocks[k]? = some b
  payload : b.payload? = some ⟨placed.offset, 19⟩
  carried : t.headerOf b = .ok (some placed)
  rest : t' = { t with image := t'.image }
  length : t'.image.length = t.image.length ∧ t'.image.bytes.size = t.image.bytes.size
  /-- Only the ten bytes of the name and the checksum can be different. -/
  frame : ∀ i, ¬ (placed.offset + 2 ≤ i ∧ i < placed.offset + 12) → i ≠ placed.offset + 18 →
    t'.image.bytes[i]? = t.image.bytes[i]?
  named : (t'.image.slice (placed.offset + 2) 10).toList = storedName name
  sum : (t'.image.slice placed.offset 19).toList.foldl (· ^^^ ·) 0 = 0
  indexed : Indexed t' x
  blocks : t'.scan.blocks = t.scan.blocks.modify k (Block.withName name)
  header : t'.headerOf (b.withName name) =
    .ok (some { placed with header := placed.header.withName name })
  others : ∀ j c, j ≠ k → t.scan.blocks[j]? = some c → t'.headerOf c = t.headerOf c

theorem Headed.renamed (here : t.Headed k b o) (h : Indexed t x) (name : String) :
    t.Renamed (t.relabelled o name) x k b ⟨o, 0, Tap.headerAt t.image (o + 1)⟩ name where
  found := here.found
  payload := Block.payload_of_rom here.rom
  carried := here.carried h
  rest := by rw [relabelled_eq, overwritten]
  length := ⟨length_relabelled, size_relabelled (here.fits h)⟩
  frame i apart apart' := by
    rw [getElem?_relabelled (here.fits h) here.flag, if_neg apart, if_neg apart']
  named := slice_name (here.fits h) here.flag h.whole
  sum := by
    rw [slice_relabelled (here.fits h), Tap.Header.relabelled, Tap.Header.xor_payload]
  indexed := (here.indexed h).1
  blocks := here.blocks h
  header := by
    rw [(here.again h).carried (here.indexed h).1, headerAt_relabelled (here.fits h) here.flag]
  others j c other there := here.headerOf_other h other there

/-- Renaming writes the name and the checksum of one header and nothing else: the blocks are read
as before but for that name, the index is the same, and the same name once more changes nothing.
A renaming that fails has not written at all. -/
theorem rename_exact (h : Indexed t x) (k : Nat) (name : String) :
    (∀ t' came, t.rename x k name = .ok (t', came) →
      (t.renameInPlace x k name).run t.image = (.ok came, t'.image) ∧
      (∃ b placed, t.Renamed t' x k b placed name) ∧
      (came = .cut ↔ 10 < name.length) ∧
      t'.rename x k name = .ok (t', came)) ∧
    ∀ fault, t.rename x k name = .error fault →
      (t.renameInPlace x k name).run t.image = (.error fault, t.image) := by
  refine ⟨fun t' came renamed => ?_, fun fault failed => by rw [renameInPlace_run, failed]⟩
  refine ⟨by rw [renameInPlace_run, renamed], ?_⟩
  rcases rename_cases h k name with ⟨b, o, here, eq⟩ | ⟨-, -, eq⟩ | ⟨-, eq⟩
  · obtain ⟨rfl, rfl⟩ := Prod.mk.inj (Except.ok.inj (eq.symm.trans renamed))
    refine ⟨⟨b, _, here.renamed h name⟩, ?_, ?_⟩
    · simp [Tap.Header.nameFits]
    · rw [(here.again h).rename_eq (here.indexed h).1, here.relabelled_twice h]
  · rw [eq] at renamed
    cases renamed
  · rw [eq] at renamed
    cases renamed

def untyped : Tape :=
  ⟨.tap, .ofBytes #[19, 0, 0, 7, 65, 66, 32, 32, 32, 32, 32, 32, 32, 32, 9, 8, 7, 6, 5, 4, 13,
    2, 0, 255, 255], none⟩

/-- The type and the lengths stay; letters that cannot be stored become question marks. -/
theorem rename_exact_untyped : Indexed untyped ⟨#[0], 2⟩ ∧
    ∃ t' b placed, untyped.rename ⟨#[0], 2⟩ 0 "Größe der Welt" = .ok (t', .cut) ∧
      t'.image.bytes = #[19, 0, 0, 7, 71, 114, 63, 63, 101, 32, 100, 101, 114, 32,
        9, 8, 7, 6, 5, 4, 37, 2, 0, 255, 255] ∧
      untyped.Renamed t' ⟨#[0], 2⟩ 0 b placed "Größe der Welt" := by
  have indexed : Indexed untyped ⟨#[0], 2⟩ := ⟨rfl, by decide +kernel⟩
  let t' : Tape :=
    ⟨.tap, .ofBytes #[19, 0, 0, 7, 71, 114, 63, 63, 101, 32, 100, 101, 114, 32, 9, 8, 7, 6, 5, 4,
      37, 2, 0, 255, 255], none⟩
  have renamed : untyped.rename ⟨#[0], 2⟩ 0 "Größe der Welt" = .ok (t', .cut) := by
    decide +kernel
  obtain ⟨-, ⟨b, placed, done⟩, -⟩ :=
    (rename_exact indexed 0 "Größe der Welt").1 t' .cut renamed
  exact ⟨indexed, t', b, placed, renamed, rfl, done⟩

end Tape

end Cassette
