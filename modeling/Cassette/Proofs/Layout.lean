import Cassette.Proofs.Extent

/-! The layouts of TZX blocks as tables give them. `Layout` says which bytes may stand behind
the id byte of a kind; fields that nobody reads may hold anything. Main statement:
`blockAt?_exact`, a block is read just where such bytes stand between any others, it has their
fields and ends where they end, and a byte that begins no layout is reported. -/

namespace Cassette

open LittleEndian (capacity digits digits_length)

theorem LittleEndian.length_flatMap_digits (ws : List UInt16) :
    (ws.flatMap fun w => digits 2 w.toNat).length = 2 * ws.length := by
  simp [List.length_flatMap, List.map_const', Nat.mul_comm]

/-! ### Bytes that stand in an image -/

namespace Image

/-- A run of bytes stands in an image, between any others. -/
def Stands (image : Image) (offset : Nat) (run : List UInt8) : Prop :=
  ∃ before behind : List UInt8,
    before.length = offset ∧ image.bytes = (before ++ run ++ behind).toArray

variable {image : Image} {offset width n : Nat} {b : UInt8} {xs ys : List UInt8}

theorem stands_iff_drop :
    image.Stands offset xs ↔ offset ≤ image.bytes.size ∧ xs <+: image.bytes.toList.drop offset := by
  constructor
  · rintro ⟨before, behind, rfl, bytes⟩
    simp [bytes]
  · rintro ⟨inside, behind, rest⟩
    refine ⟨image.bytes.toList.take offset, behind, ?_, ?_⟩
    · rw [List.length_take, Array.length_toList, Nat.min_eq_left inside]
    · rw [List.append_assoc, rest, List.take_append_drop, Array.toArray_toList]

theorem stands_nil : image.Stands offset [] ↔ offset ≤ image.bytes.size := by
  simp [stands_iff_drop]

theorem stands_cons :
    image.Stands offset (b :: xs) ↔
      (offset < image.bytes.size ∧ image.byte offset = b) ∧ image.Stands (offset + 1) xs := by
  simp only [stands_iff_drop]
  rcases Nat.lt_or_ge offset image.bytes.size with inside | behind
  · rw [List.drop_eq_getElem_cons (by simpa using inside), List.cons_prefix_cons]
    simp [byte, inside, Nat.le_of_lt inside, Nat.succ_le_of_lt inside, eq_comm]
  · rw [List.drop_eq_nil_of_le (by simpa using behind)]
    simp [Nat.not_lt.2 behind]

theorem Stands.fits (stands : image.Stands offset xs) :
    offset + xs.length ≤ image.bytes.size := by
  obtain ⟨before, behind, rfl, bytes⟩ := stands
  simp only [bytes, List.size_toArray, List.length_append]
  omega

theorem stands_append :
    image.Stands offset (xs ++ ys) ↔
      image.Stands offset xs ∧ image.Stands (offset + xs.length) ys := by
  induction xs generalizing offset with
  | nil =>
    simp only [List.nil_append, stands_nil, List.length_nil, Nat.add_zero]
    exact ⟨fun stands => ⟨Nat.le_trans (Nat.le_add_right _ _) stands.fits, stands⟩, And.right⟩
  | cons b xs ih =>
    rw [List.cons_append, stands_cons, stands_cons, ih, List.length_cons, and_assoc, and_assoc,
      and_assoc, Nat.add_assoc offset 1, Nat.add_comm 1]

theorem number_lt : image.number offset width < capacity width := by
  induction width generalizing offset with
  | zero => exact Nat.one_pos
  | succ width ih =>
    have low := (image.byte offset).toNat_lt
    have high := @ih (offset + 1)
    rw [number, capacity]
    omega

theorem number_one : image.number offset 1 = (image.byte offset).toNat := rfl

theorem toNat_word : (image.word offset).toNat = image.number offset 2 :=
  UInt16.toNat_ofNat_of_lt' number_lt

theorem stands_digits (held : n < capacity width) :
    image.Stands offset (digits width n) ↔
      offset + width ≤ image.bytes.size ∧ image.number offset width = n := by
  induction width generalizing offset n with
  | zero =>
    obtain rfl : n = 0 := Nat.lt_one_iff.1 held
    simp [digits, stands_nil, number]
  | succ width ih =>
    have high : n / 256 < capacity width := Nat.div_lt_of_lt_mul held
    rw [digits, stands_cons, ih high, number]
    constructor
    · rintro ⟨⟨-, low⟩, inside, rest⟩
      refine ⟨by omega, ?_⟩
      rw [low, rest, UInt8.toNat_ofNat']
      omega
    · rintro ⟨inside, whole⟩
      have low := (image.byte offset).toNat_lt
      refine ⟨⟨by omega, ?_⟩, by omega, by omega⟩
      rw [← UInt8.toNat_inj, UInt8.toNat_ofNat']
      omega

theorem stands_word {w : UInt16} :
    image.Stands offset (digits 2 w.toNat) ↔
      offset + 2 ≤ image.bytes.size ∧ image.word offset = w := by
  rw [stands_digits w.toNat_lt, ← toNat_word, UInt16.toNat_inj]

theorem stands_long {n : UInt32} :
    image.Stands offset (digits 4 n.toNat) ↔
      offset + 4 ≤ image.bytes.size ∧ UInt32.ofNat (image.number offset 4) = n := by
  rw [stands_digits n.toNat_lt, ← UInt32.toNat_inj, UInt32.toNat_ofNat_of_lt' number_lt]

theorem stands_words {ws : List UInt16} :
    image.Stands offset (ws.flatMap fun w => digits 2 w.toNat) ↔
      offset + 2 * ws.length ≤ image.bytes.size ∧ image.words offset ws.length = ws := by
  induction ws generalizing offset with
  | nil => simp [stands_nil, words]
  | cons w ws ih =>
    rw [List.flatMap_cons, stands_append, stands_word, LittleEndian.digits_length, ih,
      List.length_cons, words, List.cons.injEq]
    constructor
    · rintro ⟨⟨-, first⟩, inside, rest⟩
      exact ⟨by omega, first, rest⟩
    · rintro ⟨inside, first, rest⟩
      exact ⟨⟨by omega, first⟩, by omega, rest⟩

theorem stands_bytes {data : Bytes} :
    image.Stands offset data.toList ↔
      offset + data.size ≤ image.bytes.size ∧ image.slice offset data.size = data := by
  constructor
  · intro stands
    have fits := stands.fits
    obtain ⟨before, behind, rfl, bytes⟩ := stands
    refine ⟨fits, ?_⟩
    simp [slice, bytes]
  · rintro ⟨inside, same⟩
    rw [← same, slice, stands_iff_drop]
    simp only [Array.toList_extract, List.extract_eq_take_drop, Nat.add_sub_cancel_left]
    exact ⟨by omega, List.take_prefix _ _⟩

/-! Whatever is there stands where it is read. -/

theorem byte_stands (inside : offset + 1 ≤ image.bytes.size) :
    image.Stands offset [image.byte offset] :=
  stands_cons.2 ⟨⟨inside, rfl⟩, stands_nil.2 inside⟩

theorem number_stands (inside : offset + width ≤ image.bytes.size) :
    image.Stands offset (digits width (image.number offset width)) :=
  (stands_digits number_lt).2 ⟨inside, rfl⟩

theorem word_stands (inside : offset + 2 ≤ image.bytes.size) :
    image.Stands offset (digits 2 (image.word offset).toNat) :=
  stands_word.2 ⟨inside, rfl⟩

theorem long_stands (inside : offset + 4 ≤ image.bytes.size) :
    image.Stands offset (digits 4 (UInt32.ofNat (image.number offset 4)).toNat) :=
  stands_long.2 ⟨inside, rfl⟩

theorem length_words : (image.words offset n).length = n := by
  induction n generalizing offset with
  | zero => rfl
  | succ n ih => rw [words, List.length_cons, ih]

theorem words_stands (inside : offset + 2 * n ≤ image.bytes.size) :
    image.Stands offset ((image.words offset n).flatMap fun w => digits 2 w.toNat) := by
  rw [stands_words, length_words]
  exact ⟨inside, rfl⟩

theorem exists_stands (image : Image) (offset n : Nat) (inside : offset + n ≤ image.bytes.size) :
    ∃ data : Bytes, data.size = n ∧ image.Stands offset data.toList := by
  have size : (image.slice offset n).size = n := by
    rw [slice, Array.size_extract, Nat.min_eq_left inside, Nat.add_sub_cancel_left]
  exact ⟨_, size, stands_bytes.2 ⟨size.symm ▸ inside, by rw [size]⟩⟩

end Image

namespace Tzx

/-! ### The table of layouts -/

/-- No other code stands for a way of packing that has a name. -/
def Compression.Canonical (c : Compression) : Prop := ∀ code, c = other code → code ≠ 1 ∧ code ≠ 2

theorem Compression.canonical_ofByte (code : UInt8) : (ofByte code).Canonical := by
  intro other same
  unfold ofByte at same
  split at same
  · cases same
  · split at same
    · cases same
    · next one two =>
      obtain rfl := Compression.other.inj same
      exact ⟨one, two⟩

theorem Compression.ofByte_toByte {c : Compression} (canonical : c.Canonical) :
    ofByte c.toByte = c := by
  cases c with
  | runLength | deflated => rfl
  | other code =>
    obtain ⟨one, two⟩ := canonical code rfl
    rw [toByte, ofByte, if_neg one, if_neg two]

/-- Which bytes stand behind the id byte of a block with given fields. Numbers, displacements
among them, stand in two, three or four bytes, a payload or a text behind its length, and
whatever a layout names without the kind is ignored. -/
inductive Layout : Kind Bytes String → List UInt8 → Prop
  | standardSpeed (pauseMs : UInt16) (data : Bytes) (fits : data.size < capacity 2) :
    Layout (.standardSpeed pauseMs data)
      (digits 2 pauseMs.toNat ++ digits 2 data.size ++ data.toList)
  | turboSpeed (pilotPulse sync1 sync2 zeroPulse onePulse pilotLength : UInt16)
      (usedBits : UInt8) (pauseMs : UInt16) (data : Bytes) (fits : data.size < capacity 3) :
    Layout
      (.turboSpeed pilotPulse sync1 sync2 zeroPulse onePulse pilotLength usedBits pauseMs data)
      (digits 2 pilotPulse.toNat ++ digits 2 sync1.toNat ++ digits 2 sync2.toNat ++
        digits 2 zeroPulse.toNat ++ digits 2 onePulse.toNat ++ digits 2 pilotLength.toNat ++
        [usedBits] ++ digits 2 pauseMs.toNat ++ digits 3 data.size ++ data.toList)
  | pureTone (pulse count : UInt16) :
    Layout (.pureTone pulse count) (digits 2 pulse.toNat ++ digits 2 count.toNat)
  | pulseSequence (pulses : List UInt16) (fits : pulses.length < capacity 1) :
    Layout (.pulseSequence pulses)
      (digits 1 pulses.length ++ pulses.flatMap fun w => digits 2 w.toNat)
  | pureData (zeroPulse onePulse : UInt16) (usedBits : UInt8) (pauseMs : UInt16) (data : Bytes)
      (fits : data.size < capacity 3) :
    Layout (.pureData zeroPulse onePulse usedBits pauseMs data)
      (digits 2 zeroPulse.toNat ++ digits 2 onePulse.toNat ++ [usedBits] ++
        digits 2 pauseMs.toNat ++ digits 3 data.size ++ data.toList)
  | directRecording (ticksPerSample pauseMs : UInt16) (usedBits : UInt8) (data : Bytes)
      (fits : data.size < capacity 3) :
    Layout (.directRecording ticksPerSample pauseMs usedBits data)
      (digits 2 ticksPerSample.toNat ++ digits 2 pauseMs.toNat ++ [usedBits] ++
        digits 3 data.size ++ data.toList)
  -- The length of packed samples counts the ten bytes of fields behind it as well.
  | csw (pauseMs : UInt16) (sampleRate : Nat) (compression : Compression) (storedPulses : UInt32)
      (data : Bytes) (rated : sampleRate < capacity 3) (canonical : compression.Canonical)
      (fits : 10 + data.size < capacity 4) :
    Layout (.csw pauseMs sampleRate compression storedPulses data)
      (digits 4 (10 + data.size) ++ digits 2 pauseMs.toNat ++ digits 3 sampleRate ++
        [compression.toByte] ++ digits 4 storedPulses.toNat ++ data.toList)
  | pause (ms : UInt16) : Layout (.pause ms) (digits 2 ms.toNat)
  | groupStart (name : Bytes) (fits : name.size < capacity 1) :
    Layout (.groupStart (Text.Utf8.decode name)) (digits 1 name.size ++ name.toList)
  | groupEnd : Layout .groupEnd []
  | jump (displacement : Int16) :
    Layout (.jump displacement) (digits 2 displacement.toUInt16.toNat)
  | loopStart (repetitions : UInt16) : Layout (.loopStart repetitions) (digits 2 repetitions.toNat)
  | loopEnd : Layout .loopEnd []
  | callSequence (displacements : List Int16) (fits : displacements.length < capacity 2) :
    Layout (.callSequence displacements)
      (digits 2 displacements.length ++
        (displacements.map Int16.toUInt16).flatMap fun w => digits 2 w.toNat)
  | callReturn : Layout .callReturn []
  | select (choices : Bytes) (fits : choices.size < capacity 2) :
    Layout .select (digits 2 choices.size ++ choices.toList)
  | stopIf48K (length : UInt32) : Layout .stopIf48K (digits 4 length.toNat)
  | signalLevel (length : UInt32) (level : UInt8) :
    Layout (.signalLevel (level != 0)) (digits 4 length.toNat ++ [level])
  | description (text : Bytes) (fits : text.size < capacity 1) :
    Layout (.description (Text.Utf8.decode text)) (digits 1 text.size ++ text.toList)
  | message (seconds : UInt8) (text : Bytes) (fits : text.size < capacity 1) :
    Layout (.message (Text.Utf8.decode text)) ([seconds] ++ (digits 1 text.size ++ text.toList))
  | archive (texts : Bytes) (fits : texts.size < capacity 2) :
    Layout .archive (digits 2 texts.size ++ texts.toList)
  | hardware (count : Nat) (entries : Bytes) (fits : count < capacity 1)
      (triples : entries.size = 3 * count) :
    Layout .hardware (digits 1 count ++ entries.toList)
  | custom (name info : Bytes) (sixteen : name.size = 16) (fits : info.size < capacity 4) :
    Layout .custom (name.toList ++ digits 4 info.size ++ info.toList)
  | glue (header : Bytes) (nine : header.size = 9) : Layout .glue header.toList

def blockOf (k : Kind Bytes String) (body : List UInt8) (offset : Nat) : Block where
  offset := offset
  bodySize := body.length
  kind := k.mapData fun data => ⟨offset + 1 + (body.length - data.size), data.size⟩

variable {image : Image} {o : Nat} {k : Kind Bytes String} {body : List UInt8}

/-- The size of a body and its fields are read off any layout that stands there. -/
theorem Layout.reads (layout : Layout k body) (stands : image.Stands o body) :
    lengthCovers image o k.tag ∧ bodySize image o k.tag = body.length ∧
      kindAt image o k.tag = k.mapData fun data => ⟨o + (body.length - data.size), data.size⟩ := by
  cases layout
  all_goals
    simp (disch := assumption) only [Image.stands_append, Image.stands_word, Image.stands_long,
      Image.stands_words, Image.stands_digits, Image.stands_bytes, Image.stands_cons,
      Image.stands_nil, Image.number_one, digits_length, List.length_append, List.length_cons,
      List.length_nil, List.length_map, Array.length_toList, Nat.reduceAdd, *] at stands
    simp (disch := assumption) only [lengthCovers, Kind.tag, reduceCtorEq, false_implies,
      true_implies, bodySize, kindAt, textAt, Compression.ofByte_toByte, Kind.mapData, Image.toNat_word, digits_length, LittleEndian.length_flatMap_digits,
      List.length_append, List.length_cons, List.length_nil, List.length_map, Array.length_toList,
      Nat.reduceAdd, Nat.add_sub_cancel, Nat.add_sub_cancel_left, Nat.le_add_right, List.map_map,
      Function.comp_def, Int16.toInt16_toUInt16, List.map_id', and_self, *]

/-- Wherever the bytes of a body are there, they are a layout of its kind. -/
theorem exists_layout {tag : Tag} (covers : lengthCovers image o tag)
    (fits : o + bodySize image o tag ≤ image.bytes.size) :
    ∃ k body, Layout k body ∧ k.tag = tag ∧ image.Stands o body := by
  cases tag <;>
    simp only [bodySize, Image.toNat_word, ← Image.number_one, ← Nat.add_assoc, Nat.add_zero]
      at fits
  case' standardSpeed =>
    obtain ⟨data, size, stands⟩ := Image.exists_stands _ _ _ fits
    refine ⟨_, _, .standardSpeed (image.word o) data (size ▸ Image.number_lt), rfl, ?_⟩
  case' turboSpeed =>
    obtain ⟨data, size, stands⟩ := Image.exists_stands _ _ _ fits
    refine ⟨_, _, .turboSpeed (image.word o) (image.word (o + 2)) (image.word (o + 4))
      (image.word (o + 6)) (image.word (o + 8)) (image.word (o + 10)) (image.byte (o + 12))
      (image.word (o + 13)) data (size ▸ Image.number_lt), rfl, ?_⟩
  case' pureTone => refine ⟨_, _, .pureTone (image.word o) (image.word (o + 2)), rfl, ?_⟩
  case' pulseSequence =>
    have count : (image.words (o + 1) (image.number o 1)).length = _ := Image.length_words
    refine ⟨_, _, .pulseSequence _ (count.symm ▸ Image.number_lt), rfl, ?_⟩
  case' pureData =>
    obtain ⟨data, size, stands⟩ := Image.exists_stands _ _ _ fits
    refine ⟨_, _, .pureData (image.word o) (image.word (o + 2)) (image.byte (o + 4))
      (image.word (o + 5)) data (size ▸ Image.number_lt), rfl, ?_⟩
  case' directRecording =>
    obtain ⟨data, size, stands⟩ := Image.exists_stands _ _ _ fits
    refine ⟨_, _, .directRecording (image.word o) (image.word (o + 2)) (image.byte (o + 4)) data
      (size ▸ Image.number_lt), rfl, ?_⟩
  case' csw =>
    obtain ⟨data, size, stands⟩ := Image.exists_stands _ _ _ fits
    replace size : 10 + data.size = image.number o 4 := by
      rw [size, Nat.add_sub_cancel' (covers rfl)]
    refine ⟨_, _, .csw (image.word (o + 4)) (image.number (o + 6) 3) (.ofByte (image.byte (o + 9)))
      (UInt32.ofNat (image.number (o + 10) 4)) data Image.number_lt (Compression.canonical_ofByte _)
      (size ▸ Image.number_lt), rfl, ?_⟩
  case' pause => refine ⟨_, _, .pause (image.word o), rfl, ?_⟩
  case' groupStart =>
    obtain ⟨name, size, stands⟩ := Image.exists_stands _ _ _ fits
    refine ⟨_, _, .groupStart name (size ▸ Image.number_lt), rfl, ?_⟩
  case' groupEnd => refine ⟨_, _, .groupEnd, rfl, Image.stands_nil.2 fits⟩
  case' jump => refine ⟨_, _, .jump (image.word o).toInt16, rfl, ?_⟩
  case' loopStart => refine ⟨_, _, .loopStart (image.word o), rfl, ?_⟩
  case' loopEnd => refine ⟨_, _, .loopEnd, rfl, Image.stands_nil.2 fits⟩
  case' callSequence =>
    have count : ((image.words (o + 2) (image.number o 2)).map UInt16.toInt16).length = _ :=
      (List.length_map _).trans Image.length_words
    refine ⟨_, _, .callSequence _ (count.symm ▸ Image.number_lt), rfl, ?_⟩
  case' callReturn => refine ⟨_, _, .callReturn, rfl, Image.stands_nil.2 fits⟩
  case' select =>
    obtain ⟨choices, size, stands⟩ := Image.exists_stands _ _ _ fits
    refine ⟨_, _, .select choices (size ▸ Image.number_lt), rfl, ?_⟩
  case' stopIf48K => refine ⟨_, _, .stopIf48K (UInt32.ofNat (image.number o 4)), rfl, ?_⟩
  case' signalLevel =>
    refine ⟨_, _, .signalLevel (UInt32.ofNat (image.number o 4)) (image.byte (o + 4)), rfl, ?_⟩
  case' description =>
    obtain ⟨text, size, stands⟩ := Image.exists_stands _ _ _ fits
    refine ⟨_, _, .description text (size ▸ Image.number_lt), rfl, ?_⟩
  case' message =>
    obtain ⟨text, size, stands⟩ := Image.exists_stands _ _ _ fits
    refine ⟨_, _, .message (image.byte o) text (size ▸ Image.number_lt), rfl, ?_⟩
  case' archive =>
    obtain ⟨texts, size, stands⟩ := Image.exists_stands _ _ _ fits
    refine ⟨_, _, .archive texts (size ▸ Image.number_lt), rfl, ?_⟩
  case' hardware =>
    obtain ⟨entries, size, stands⟩ := Image.exists_stands _ _ _ fits
    refine ⟨_, _, .hardware (image.number o 1) entries Image.number_lt size, rfl, ?_⟩
  case' custom =>
    obtain ⟨name, sixteen, named⟩ := Image.exists_stands image o 16 (by omega)
    obtain ⟨info, size, stands⟩ := Image.exists_stands _ _ _ fits
    refine ⟨_, _, .custom name info sixteen (size ▸ Image.number_lt), rfl, ?_⟩
  case' glue =>
    obtain ⟨header, nine, stands⟩ := Image.exists_stands _ _ _ fits
    refine ⟨_, _, .glue header nine, rfl, ?_⟩
  all_goals
    simp (disch := omega) only [Image.stands_append, Image.byte_stands, Image.number_stands,
      Image.word_stands, Image.long_stands, Image.words_stands, Compression.toByte_ofByte,
      digits_length, List.length_append,
      List.length_cons, List.length_nil, Array.length_toList, Nat.reduceAdd, List.map_map,
      Function.comp_def, UInt16.toUInt16_toInt16, List.map_id', and_self, *]

theorem Layout.describe_eq (layout : Layout k body) (stands : image.Stands (o + 1) body) :
    describe image o k.tag = blockOf k body o := by
  obtain ⟨-, size, kind⟩ := layout.reads stands
  simp only [describe, blockOf, size, kind]

/-- A block is read just where an id byte and a layout of its kind stand. -/
theorem blockAt?_eq_ok_iff_stands (whole : image.Whole) {b : Block} :
    blockAt? image o = .ok (some b) ↔
      ∃ k body, Layout k body ∧ image.Stands o (k.tag.toByte :: body) ∧ b = blockOf k body o := by
  rw [blockAt?_eq_ok_some_iff whole]
  constructor
  · rintro ⟨tag, known, covers, fits, rfl⟩
    rw [whole, describe_size, ← Nat.add_assoc] at fits
    obtain ⟨k, body, layout, rfl, stands⟩ := exists_layout covers fits
    have id : image.byte o = k.tag.toByte := (Tag.toByte_of_ofByte? known).symm
    exact ⟨k, body, layout, Image.stands_cons.2 ⟨⟨by omega, id⟩, stands⟩, layout.describe_eq stands⟩
  · rintro ⟨k, body, layout, stands, rfl⟩
    have fits := stands.fits
    obtain ⟨⟨-, id⟩, stands⟩ := Image.stands_cons.1 stands
    refine ⟨k.tag, ?_, (layout.reads stands).1, ?_, (layout.describe_eq stands).symm⟩
    · rw [id, Tag.ofByte?_toByte]
    · rw [whole, blockOf, Block.size, Nat.add_comm 1]
      exact fits

theorem Layout.payload (layout : Layout k body) {data : Bytes} (h : k.data? = some data) :
    ∃ fields, body = fields ++ data.toList := by
  cases layout <;> cases h <;> exact ⟨_, rfl⟩

/-- The span of a payload covers the payload, and its block ends with it. -/
theorem Layout.span_eq (layout : Layout k body) (stands : image.Stands (o + 1) body) {data : Bytes}
    (h : k.data? = some data) :
    ∃ span, (blockOf k body o).kind.data? = some span ∧ span.stop = (blockOf k body o).stop ∧
      image.slice span.offset span.length = data := by
  obtain ⟨fields, rfl⟩ := layout.payload h
  have ending := (Image.stands_bytes.1 (Image.stands_append.1 stands).2).2
  refine ⟨_, by rw [blockOf, Kind.data?_mapData, h, Option.map_some], ?_, ?_⟩
  · simp only [blockOf, Span.stop, Block.stop, Block.size, List.length_append, Array.length_toList]
    omega
  · simpa using ending

theorem blockAt?_unknown {id : UInt8} (there : image.bytes[o]? = some id)
    (whole : image.Whole) (unknown : ∀ tag : Tag, tag.toByte ≠ id) :
    blockAt? image o = .error (.unknownBlock id o) := by
  obtain ⟨inside, byte⟩ := Array.getElem?_eq_some_iff.1 there
  have none : Tag.ofByte? id = none := by
    cases known : Tag.ofByte? id with
    | none => rfl
    | some tag => exact absurd (Tag.toByte_of_ofByte? known) (unknown tag)
  have read : image.byte o = id := by
    rw [Image.byte, Array.getD_eq_getD_getElem?, there, Option.getD_some]
  have reached : image.reach o 1 = .ok () := if_pos (.inr inside)
  rw [blockAt?, if_neg (by rw [whole]; omega), reached, read, none]
  rfl

/-- A block is read where an id byte and a layout of its kind stand, whatever surrounds them; it
has the fields of the layout, its payload is where the layout has it, and it ends where the layout
ends. A block is read nowhere else, and a byte that is no id of a kind is reported. -/
theorem blockAt?_exact :
    (∀ {k body}, Layout k body → ∀ before after : List UInt8,
      let image := Image.ofBytes (before ++ (k.tag.toByte :: body) ++ after).toArray
      let b := blockOf k body before.length
      blockAt? image before.length = .ok (some b) ∧
        b.stop = before.length + (k.tag.toByte :: body).length ∧
        ∀ data, k.data? = some data → ∃ span, b.kind.data? = some span ∧ span.stop = b.stop ∧
          image.slice span.offset span.length = data) ∧
    (∀ {bytes offset b}, blockAt? (.ofBytes bytes) offset = .ok (some b) →
      ∃ k body before after, Layout k body ∧ before.length = offset ∧
        bytes = (before ++ (k.tag.toByte :: body) ++ after).toArray ∧ b = blockOf k body offset) ∧
    (∀ {bytes : Bytes} {offset id}, bytes[offset]? = some id → (∀ tag : Tag, tag.toByte ≠ id) →
      blockAt? (.ofBytes bytes) offset = .error (.unknownBlock id offset)) ∧
    ∀ tag : Tag, tag.toByte ≠ generalizedDataId := by
  refine ⟨fun {k body} layout before after => ?_, fun read => ?_, fun there unknown => ?_, ?_⟩
  · intro image b
    have stands : image.Stands before.length (k.tag.toByte :: body) := ⟨before, after, rfl, rfl⟩
    have read : blockAt? image before.length = .ok (some b) :=
      (blockAt?_eq_ok_iff_stands (Image.whole_ofBytes _)).2 ⟨k, body, layout, stands, rfl⟩
    refine ⟨read, ?_, fun data h => layout.span_eq (Image.stands_cons.1 stands).2 h⟩
    rw [List.length_cons, Nat.add_comm body.length]
    rfl
  · obtain ⟨k, body, layout, ⟨before, after, length, bytes⟩, rfl⟩ :=
      (blockAt?_eq_ok_iff_stands (Image.whole_ofBytes _)).1 read
    exact ⟨k, body, before, after, layout, length, bytes, rfl⟩
  · exact blockAt?_unknown there (Image.whole_ofBytes _) unknown
  · intro tag
    cases tag <;> decide

/-- Packed samples between the end of a group and a block of unknown length, and the same with the
code of the other packing that has a name, or of one that has none. -/
theorem blockAt?_exact_packed :
    let body (code : UInt8) :=
      digits 4 12 ++ digits 2 1000 ++ digits 3 44100 ++ [code] ++ digits 4 2 ++ [3, 4]
    let imageWith (code : UInt8) := Image.ofBytes ([0x22] ++ (0x18 :: body code) ++ [0x19]).toArray
    let image := imageWith 1
    let b : Block := ⟨1, 16, .csw 1000 44100 .runLength 2 ⟨16, 2⟩⟩
    (blockAt? image 1 = .ok (some b) ∧ image.slice 16 2 = #[3, 4]) ∧
      blockAt? (imageWith 2) 1 = .ok (some ⟨1, 16, .csw 1000 44100 .deflated 2 ⟨16, 2⟩⟩) ∧
      blockAt? (imageWith 3) 1 = .ok (some ⟨1, 16, .csw 1000 44100 (.other 3) 2 ⟨16, 2⟩⟩) ∧
      (∃ k body before after, Layout k body ∧ before.length = 1 ∧
        image.bytes = (before ++ (k.tag.toByte :: body) ++ after).toArray ∧ b = blockOf k body 1) ∧
      blockAt? image 18 = .error (.unknownBlock generalizedDataId 18) := by
  intro body imageWith image b
  have layout {c : Compression} (canonical : c.Canonical) :
      Layout (.csw 1000 44100 c 2 #[3, 4]) (body c.toByte) :=
    .csw 1000 44100 c 2 #[3, 4] (by decide) canonical (by decide)
  obtain ⟨read, -, payload⟩ := blockAt?_exact.1 (layout (c := .runLength) nofun) [0x22] [0x19]
  obtain ⟨read₂, -⟩ := blockAt?_exact.1 (layout (c := .deflated) nofun) [0x22] [0x19]
  obtain ⟨read₃, -⟩ :=
    blockAt?_exact.1 (layout (Compression.canonical_ofByte 3)) [0x22] [0x19]
  refine ⟨⟨read, ?_⟩, read₂, read₃, blockAt?_exact.2.1 read, ?_⟩
  · obtain ⟨span, found, -, covers⟩ := payload _ rfl
    obtain rfl : ⟨16, 2⟩ = span := Option.some.inj found
    exact covers
  · exact blockAt?_exact.2.2.1 rfl blockAt?_exact.2.2.2

end Tzx

end Cassette
