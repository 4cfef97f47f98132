import Cassette.Proofs.Cutting

/-! Reading with a head that moves. Here a block is read field by field, each where the head has
been left by the one before, and a fault leaves the head wherever it was raised
(`Tzx.decodeBody`, `Tap.decode`); only then is the head put back (`Tape.readNext`). No field is
read that a check of the length has not covered, so this comes to the same as reading every field
at its place (`Tape.readNext_eq`). Main statement: `reads_on`, a read either moves the head to the
end of a block or leaves it where it was, and so every scan comes to a stop. -/

namespace Cassette

open Tzx (Span)

/-- What moves the head; a fault leaves it where it is. -/
abbrev Reading := ExceptT ReadFault (StateM Nat)

namespace Reading

variable (image : Image)

def need (count : Nat) (what : String) : Reading Unit := do image.claim (← get) count what

def pass (count : Nat) : Reading Unit := modify (· + count)

def field {α : Type} (width : Nat) (value : (offset : Nat) → α) : Reading α := do
  let head ← get
  image.reach head width
  pass width
  return value head

def byte : Reading UInt8 := field image 1 image.byte

def word : Reading UInt16 := field image 2 image.word

def number (width : Nat) : Reading Nat := field image width (image.number · width)

def words : (count : Nat) → Reading (List UInt16)
  | 0 => return []
  | count + 1 => do
    let first ← word image
    let rest ← words count
    return first :: rest

def skip (count : Nat) (what : String) : Reading Unit := do
  need image count what
  pass count

def span (length : Nat) (what : String) : Reading Span := do
  let head ← get
  skip image length what
  return ⟨head, length⟩

def text (what : String) : Reading String := do
  need image 1 what
  let length ← byte image
  need image length.toNat what
  field image length.toNat fun offset => Text.Utf8.decode (image.slice offset length.toNat)

end Reading

open Reading

def Tzx.decodeBody (image : Image) (tag : Tag) : Reading (Kind Span String) := do
  let byte := Reading.byte image
  let word := Reading.word image
  match tag with
  | .standardSpeed =>
    need image 4 "TZX Standard Speed header"
    let pauseMs ← word
    let length ← word
    let data ← span image length.toNat "TZX Standard Speed data"
    return .standardSpeed pauseMs data
  | .turboSpeed =>
    need image 18 "TZX Turbo Speed header"
    let pilotPulse ← word
    let sync1 ← word
    let sync2 ← word
    let zeroPulse ← word
    let onePulse ← word
    let pilotLength ← word
    let usedBits ← byte
    let pauseMs ← word
    let length ← number image 3
    let data ← span image length "TZX Turbo Speed data"
    return .turboSpeed pilotPulse sync1 sync2 zeroPulse onePulse pilotLength usedBits pauseMs data
  | .pureTone =>
    need image 4 "TZX Pure Tone"
    let width ← word
    let count ← word
    return .pureTone width count
  | .pulseSequence =>
    need image 1 "TZX Pulse Sequence count"
    let count ← byte
    need image (2 * count.toNat) "TZX Pulse Sequence data"
    let widths ← words image count.toNat
    return .pulseSequence widths
  | .pureData =>
    need image 10 "TZX Pure Data header"
    let zeroPulse ← word
    let onePulse ← word
    let usedBits ← byte
    let pauseMs ← word
    let length ← number image 3
    let data ← span image length "TZX Pure Data data"
    return .pureData zeroPulse onePulse usedBits pauseMs data
  | .directRecording =>
    need image 8 "TZX Direct Recording header"
    let ticksPerSample ← word
    let pauseMs ← word
    let usedBits ← byte
    let length ← number image 3
    let data ← span image length "TZX Direct Recording data"
    return .directRecording ticksPerSample pauseMs usedBits data
  | .csw =>
    need image 14 "TZX CSW Recording header"
    let length ← number image 4
    if length < 10 then
      throw (.truncated "TZX CSW Recording header" (← get) 10 length)
    else
      let pauseMs ← word
      let sampleRate ← number image 3
      let compression ← byte
      let storedPulses ← number image 4
      let data ← span image (length - 10) "TZX CSW Recording data"
      return .csw pauseMs sampleRate (.ofByte compression) (UInt32.ofNat storedPulses) data
  | .pause =>
    need image 2 "TZX Pause"
    let ms ← word
    return .pause ms
  | .groupStart =>
    let name ← text image "TZX Group Start name"
    return .groupStart name
  | .groupEnd => return .groupEnd
  | .jump =>
    need image 2 "TZX Jump"
    let displacement ← word
    return .jump displacement.toInt16
  | .loopStart =>
    need image 2 "TZX Loop Start"
    let repetitions ← word
    return .loopStart repetitions
  | .loopEnd => return .loopEnd
  | .callSequence =>
    need image 2 "TZX Call Sequence count"
    let count ← word
    need image (2 * count.toNat) "TZX Call Sequence offsets"
    let displacements ← words image count.toNat
    return .callSequence (displacements.map UInt16.toInt16)
  | .callReturn => return .callReturn
  | .select =>
    need image 2 "TZX Select Block length"
    let length ← word
    skip image length.toNat "TZX Select Block body"
    return .select
  | .stopIf48K =>
    skip image 4 "TZX Stop If 48K"
    return .stopIf48K
  | .signalLevel =>
    need image 5 "TZX Set Signal Level"
    pass 4
    let level ← byte
    return .signalLevel (level != 0)
  | .description =>
    let text ← text image "TZX Text Description"
    return .description text
  | .message =>
    need image 1 "TZX Message time"
    pass 1
    let text ← text image "TZX Message text"
    return .message text
  | .archive =>
    need image 2 "TZX Archive Info length"
    let length ← word
    skip image length.toNat "TZX Archive Info body"
    return .archive
  | .hardware =>
    need image 1 "TZX Hardware Type count"
    let count ← byte
    skip image (3 * count.toNat) "TZX Hardware Type entries"
    return .hardware
  | .custom =>
    need image 20 "TZX Custom Info header"
    pass 16
    let length ← number image 4
    skip image length "TZX Custom Info body"
    return .custom
  | .glue =>
    skip image 9 "TZX Glue"
    return .glue

/-- Reads a TZX block; how far the head has come is its size. -/
def Tzx.decode (image : Image) : Reading Block := do
  let offset ← get
  let id ← byte image
  match Tag.ofByte? id with
  | none => throw (.unknownBlock id offset)
  | some tag =>
    let kind ← decodeBody image tag
    return { offset, bodySize := (← get) - (offset + 1), kind }

def Tap.decode (image : Image) : Reading Block := do
  let offset ← get
  need image 2 "TAP length word"
  let length ← word image
  need image length.toNat "TAP block payload"
  if length = 0 then
    return { offset, length, flag := none, header := none }
  else
    let flag ← byte image
    if length = headerLength ∧ flag = 0 then
      let header ← field image 17 (headerAt image)
      pass (length.toNat - 18)
      return { offset, length, flag := some flag, header := some header }
    else
      pass (length.toNat - 1)
      return { offset, length, flag := some flag, header := none }

namespace Tape

def decode (t : Tape) : Reading Block :=
  match t.format with
  | .tap => return .tap (← Tap.decode t.image)
  | .tzx => return .tzx (← Tzx.decode t.image)

/-- Reads the block at the head, if there is one. After a fault the head is put back. -/
def readNext (t : Tape) : Reading (Option Block) := do
  let offset ← get
  if t.length ≤ offset then return none
  else
    try return some (← t.decode)
    catch fault =>
      set offset
      throw fault

end Tape

/-! ### The same as reading in place -/

namespace Reading

variable {α β : Type} {image : Image} {m : Reading α} {f : α → Reading β}
variable {head base count width : Nat} {what : String} {r : Except ReadFault (β × Nat)}

def runAt (m : Reading α) (head : Nat) : Except ReadFault α × Nat := m.run.run head

theorem runAt_bind (m : Reading α) (f : α → Reading β) (head : Nat) :
    (m >>= f).runAt head =
      match m.runAt head with
      | (.ok a, head') => (f a).runAt head'
      | (.error fault, head') => (.error fault, head') := by
  have split : (m >>= f).runAt head =
      (ExceptT.bindCont f (m.runAt head).1).run (m.runAt head).2 := rfl
  rw [split]
  rcases m.runAt head with ⟨_ | _, _⟩ <;> rfl

theorem tryCatch_runAt (m : Reading α) (handle : ReadFault → Reading α) (head : Nat) :
    (tryCatch m handle).runAt head =
      match m.runAt head with
      | (.ok a, head') => (.ok a, head')
      | (.error fault, head') => (handle fault).runAt head' := by
  rcases moved : m.runAt head with ⟨found, head'⟩
  have run : m.run.run head = (found, head') := moved
  have caught := congrArg (fun m : StateM Nat _ => m.run head) (ExceptT.run_tryCatch m handle)
  simp only [StateT.run_bind, run] at caught
  cases found <;> exact caught

theorem get_runAt : (get : Reading Nat).runAt head = (.ok head, head) := rfl

theorem pure_runAt (a : α) : (pure a : Reading α).runAt head = (.ok a, head) := rfl

theorem pass_runAt : (pass count).runAt head = (.ok (), head + count) := rfl

theorem need_runAt :
    (need image count what).runAt head = (image.claim head count what, head) := rfl

/-- From the head on the reader answers as was read in place. If that was no fault, the head has
come to stand behind what was read from the base on. -/
def Agrees (m : Reading α) (head base : Nat) : Except ReadFault (α × Nat) → Prop
  | .ok (a, size) => m.runAt head = (.ok a, base + size)
  | .error fault => (m.runAt head).1 = .error fault

theorem agrees_pure {a : α} {size : Nat} (there : head = base + size) :
    (pure a : Reading α).Agrees head base (.ok (a, size)) := there ▸ rfl

theorem agrees_throw {fault : ReadFault} :
    (throw fault : Reading α).Agrees head base (.error fault) := rfl

/-- What has been read already is behind the head. -/
theorem agrees_bind {a : α} {head' : Nat} (first : m.runAt head = (.ok a, head'))
    (rest : (f a).Agrees head' base r) : (m >>= f).Agrees head base r := by
  cases r <;> simpa only [Agrees, runAt_bind, first] using rest

theorem agrees_fault {fault : ReadFault} {head' : Nat}
    (first : m.runAt head = (.error fault, head')) :
    (m >>= f).Agrees head base (.error fault) := by
  simp only [Agrees, runAt_bind, first]

theorem agrees_pass {f : Unit → Reading β} (rest : (f ()).Agrees (head + count) base r) :
    (pass count >>= f).Agrees head base r := agrees_bind rfl rest

theorem agrees_need {f : Unit → Reading β} {g : Unit → Except ReadFault (β × Nat)}
    (rest : head + count ≤ image.length → (f ()).Agrees head base (g ())) :
    (need image count what >>= f).Agrees head base (image.claim head count what >>= g) := by
  have asked : (need image count what).runAt head = (image.claim head count what, head) := rfl
  by_cases inside : head + count ≤ image.length
  · rw [Image.claim, if_pos inside] at asked ⊢
    exact agrees_bind asked (rest inside)
  · rw [Image.claim, if_neg inside] at asked ⊢
    exact agrees_fault asked

theorem agrees_skip {f : Unit → Reading β} {g : Unit → Except ReadFault (β × Nat)}
    (rest : (f ()).Agrees (head + count) base (g ())) :
    (skip image count what >>= f).Agrees head base (image.claim head count what >>= g) := by
  rw [skip, bind_assoc]
  exact agrees_need fun _ => agrees_pass rest

theorem agrees_span {f : Span → Reading β} {g : Span → Except ReadFault (β × Nat)}
    (rest : (f ⟨head, count⟩).Agrees (head + count) base (g ⟨head, count⟩)) :
    (span image count what >>= f).Agrees head base
      (Tzx.payloadAt image head count what >>= g) := by
  rw [span, Tzx.payloadAt, bind_assoc, bind_assoc]
  refine agrees_bind rfl ?_
  rw [bind_assoc]
  exact agrees_skip rest

/-- From the head on the reader finds what was found in place, and the head has come to its end. -/
def Finds (size : α → Nat) (m : Reading α) (head : Nat) (place : Except ReadFault (Option α)) :
    Prop :=
  ∃ found head', m.runAt head = (found, head') ∧ place = found.map some ∧
    ∀ a, found = .ok a → head' = head + size a

theorem finds_ok {size : α → Nat} {a : α} (moved : m.runAt head = (.ok a, head + size a)) :
    m.Finds size head (.ok (some a)) := by
  refine ⟨_, _, moved, rfl, ?_⟩
  rintro _ ⟨⟩
  rfl

theorem finds_fault {size : α → Nat} {fault : ReadFault} {head' : Nat}
    (failed : m.runAt head = (.error fault, head')) : m.Finds size head (.error fault) := by
  refine ⟨_, _, failed, rfl, ?_⟩
  rintro _ ⟨⟩

theorem Finds.map {size : α → Nat} {size' : β → Nat} {place : Except ReadFault (Option α)}
    {g : α → β} (finds : m.Finds size head place) (same : ∀ a, size' (g a) = size a) :
    (do return g (← m) : Reading β).Finds size' head (do return (← place).map g) := by
  obtain ⟨found, head', moved, rfl, ends⟩ := finds
  refine ⟨found.map g, head', ?_, ?_, ?_⟩
  · rw [runAt_bind, moved]
    cases found <;> rfl
  · cases found <;> rfl
  · cases found with
    | error => exact nofun
    | ok a =>
      rintro _ ⟨⟩
      rw [same]
      exact ends a rfl

section Whole

variable (whole : image.Whole)
include whole

/-- What has been checked is there, when it is read in place. -/
theorem agrees_reach {m : Reading β} {offset : Nat} {g : Unit → Except ReadFault (β × Nat)}
    (inside : offset + count ≤ image.length) (rest : m.Agrees head base (g ())) :
    m.Agrees head base (image.reach offset count >>= g) := by
  rw [Image.reach, if_pos (.inr (whole ▸ inside))]
  exact rest

theorem field_runAt {value : Nat → α} (inside : head + width ≤ image.length) :
    (field image width value).runAt head = (.ok (value head), head + width) := by
  have reached : image.reach head width = .ok () := if_pos (.inr (whole ▸ inside))
  have read : (field image width value).runAt head =
      (do liftM (image.reach head width); pass width; return value head : Reading α).runAt head :=
    rfl
  rw [read, reached]
  rfl

theorem agrees_field {value : Nat → α} (inside : head + width ≤ image.length)
    (rest : (f (value head)).Agrees (head + width) base r) :
    (field image width value >>= f).Agrees head base r :=
  agrees_bind (field_runAt whole inside) rest

theorem agrees_fetch {f : Unit → Reading β} {g : Unit → Except ReadFault (β × Nat)}
    (rest : head + count ≤ image.length → (f ()).Agrees head base (g ())) :
    (need image count what >>= f).Agrees head base (image.fetch head count what >>= g) := by
  rw [Image.fetch, bind_assoc]
  exact agrees_need fun inside => agrees_reach whole inside (rest inside)

theorem agrees_words {f : List UInt16 → Reading β} (inside : head + 2 * count ≤ image.length)
    (rest : (f (image.words head count)).Agrees (head + 2 * count) base r) :
    (words image count >>= f).Agrees head base r := by
  induction count generalizing head f with
  | zero => exact rest
  | succ count ih =>
    rw [words, bind_assoc]
    refine agrees_field whole (by omega) ?_
    rw [bind_assoc]
    refine ih (by omega) ?_
    rw [show head + 2 + 2 * count = head + 2 * (count + 1) by omega]
    exact rest

theorem agrees_text {f : String → Reading β} {g : String × Nat → Except ReadFault (β × Nat)}
    (rest : ∀ name size, (f name).Agrees (head + size) base (g (name, size))) :
    (text image what >>= f).Agrees head base (Tzx.measuredText image head what >>= g) := by
  rw [text, Tzx.measuredText]
  simp only [bind_assoc]
  refine agrees_fetch whole fun one => agrees_field whole one ?_
  refine agrees_fetch whole fun inside => agrees_field whole inside ?_
  have rest := rest (Text.Utf8.decode (image.slice (head + 1) (image.byte head).toNat))
    (1 + (image.byte head).toNat)
  rwa [← Nat.add_assoc] at rest

end Whole

end Reading

namespace Tzx

variable {image : Image} {o : Nat}

/-- A body read on the move is the body read in place, and takes the head behind it. -/
theorem decodeBody_agrees (whole : image.Whole) (tag : Tag) :
    (decodeBody image tag).Agrees o o (readBody image o tag) := by
  cases tag <;> simp only [decodeBody, readBody, word, byte, number, Nat.add_zero]
  case standardSpeed =>
    refine agrees_fetch whole fun _ => ?_
    iterate 2 refine agrees_field whole (by omega) ?_
    exact agrees_span (agrees_pure (by dsimp only; omega))
  case turboSpeed =>
    refine agrees_fetch whole fun _ => ?_
    iterate 9 refine agrees_field whole (by omega) ?_
    exact agrees_span (agrees_pure (by dsimp only; omega))
  case pureData =>
    refine agrees_fetch whole fun _ => ?_
    iterate 5 refine agrees_field whole (by omega) ?_
    exact agrees_span (agrees_pure (by dsimp only; omega))
  case directRecording =>
    refine agrees_fetch whole fun _ => ?_
    iterate 4 refine agrees_field whole (by omega) ?_
    exact agrees_span (agrees_pure (by dsimp only; omega))
  case pulseSequence | callSequence =>
    refine agrees_fetch whole fun _ => agrees_field whole (by omega) ?_
    exact agrees_fetch whole fun inside => agrees_words whole inside (agrees_pure (by omega))
  case pureTone =>
    refine agrees_fetch whole fun _ => ?_
    iterate 2 refine agrees_field whole (by omega) ?_
    exact agrees_pure rfl
  case pause | jump | loopStart =>
    exact agrees_fetch whole fun _ => agrees_field whole (by omega) (agrees_pure rfl)
  case groupStart | description => exact agrees_text whole fun _ _ => agrees_pure rfl
  case groupEnd | loopEnd | callReturn => exact agrees_pure rfl
  case select | archive | hardware =>
    refine agrees_fetch whole fun _ => agrees_field whole (by omega) ?_
    exact agrees_skip (agrees_pure (by omega))
  case stopIf48K | glue => exact agrees_skip (agrees_pure rfl)
  case signalLevel =>
    refine agrees_need fun _ => agrees_pass (agrees_field whole (by omega) ?_)
    exact agrees_reach whole (by omega) (agrees_pure rfl)
  case message =>
    refine agrees_need fun _ => agrees_pass (agrees_text whole fun _ _ => agrees_pure (by omega))
  case custom =>
    refine agrees_need fun _ => agrees_pass (agrees_field whole (by omega) ?_)
    refine agrees_reach whole (by omega) ?_
    exact agrees_skip (agrees_pure (by omega))
  case csw =>
    refine agrees_need fun _ => agrees_field whole (by omega) ?_
    refine agrees_reach whole (by omega) ?_
    split
    · exact agrees_bind rfl agrees_throw
    · iterate 4 refine agrees_field whole (by omega) ?_
      refine agrees_reach whole (by omega) ?_
      exact agrees_span (agrees_pure (by dsimp only; omega))

/-- A block read on the move is the block read in place, and takes the head to its end. -/
theorem decode_finds (whole : image.Whole) (inside : o < image.length) :
    (decode image).Finds Block.size o (blockAt? image o) := by
  have id : (Reading.byte image).runAt o = (.ok (image.byte o), o + 1) := field_runAt whole inside
  have reached : image.reach o 1 = .ok () := if_pos (.inr (whole ▸ inside))
  have read : (decode image).runAt o = (Reading.byte image >>= fun id =>
      match Tag.ofByte? id with
      | none => throw (.unknownBlock id o)
      | some tag => do
        let kind ← decodeBody image tag
        return { offset := o, bodySize := (← get) - (o + 1), kind }).runAt o := rfl
  rw [runAt_bind, id] at read
  simp only [blockAt?, if_neg (Nat.not_le.2 inside), reached]
  cases known : Tag.ofByte? (image.byte o) with
  | none =>
    simp only [known] at read
    exact finds_fault read
  | some tag =>
    have body := decodeBody_agrees (o := o + 1) whole tag
    simp only [known, runAt_bind] at read
    cases place : readBody image (o + 1) tag with
    | error fault =>
      rw [place] at body
      rcases moved : (decodeBody image tag).runAt (o + 1) with ⟨found, head⟩
      obtain rfl : found = .error fault := by simpa only [Agrees, moved] using body
      rw [moved] at read
      simp only [place]
      exact finds_fault read
    | ok found =>
      obtain ⟨kind, bodySize⟩ := found
      rw [place] at body
      have moved : (decodeBody image tag).runAt (o + 1) = (.ok kind, o + 1 + bodySize) := body
      rw [moved] at read
      simp only [place]
      refine finds_ok (read.trans ?_)
      show (Except.ok (Block.mk o (o + 1 + bodySize - (o + 1)) kind), o + 1 + bodySize) = _
      rw [Nat.add_sub_cancel_left, Nat.add_assoc]
      rfl

end Tzx

namespace Tap

variable {image : Image} {o : Nat}

theorem decode_fits (whole : image.Whole) (fits : o + (describe image o).size ≤ image.length) :
    (decode image).runAt o = (.ok (describe image o), o + (describe image o).size) := by
  simp only [describe, Block.size] at fits ⊢
  have length : (word image).runAt o = (.ok (image.word o), o + 2) := field_runAt whole (by omega)
  simp only [decode, runAt_bind, get_runAt, need_runAt, Image.claim, length,
    if_pos (show o + 2 ≤ image.length by omega),
    if_pos (show o + 2 + (image.word o).toNat ≤ image.length by omega)]
  by_cases empty : image.word o = 0
  · simp only [pure_runAt, ↓reduceIte, empty]
    rfl
  · have long : 0 < (image.word o).toNat :=
      Nat.pos_of_ne_zero fun h => empty (UInt16.toNat_inj.1 h)
    have flag : (byte image).runAt (o + 2) = (.ok (image.byte (o + 2)), o + 2 + 1) :=
      field_runAt whole (by omega)
    simp only [if_neg empty, runAt_bind, flag]
    by_cases header : image.word o = headerLength ∧ image.byte (o + 2) = 0
    · have nineteen : (image.word o).toNat = 19 := by rw [header.1]; rfl
      have fields : (field image 17 (headerAt image)).runAt (o + 2 + 1) =
          (.ok (headerAt image (o + 2 + 1)), o + 2 + 1 + 17) := field_runAt whole (by omega)
      simp only [if_pos header, runAt_bind, fields, pass_runAt, pure_runAt, nineteen]
    · simp only [if_neg header, runAt_bind, pass_runAt, pure_runAt]
      congr 1
      omega

theorem decode_finds (whole : image.Whole) (inside : o < image.length) :
    (decode image).Finds Block.size o (blockAt? image o) := by
  by_cases fits : o + (describe image o).size ≤ image.length
  · rw [blockAt?_of_fits whole fits]
    exact finds_ok (decode_fits whole fits)
  · simp only [describe, Block.size] at fits
    simp only [blockAt?, if_neg (Nat.not_le.2 inside), Image.fetch, Image.claim]
    by_cases word : o + 2 ≤ image.length
    · have reached : image.reach o 2 = .ok () := if_pos (.inr (whole ▸ word))
      have length : (Reading.word image).runAt o = (.ok (image.word o), o + 2) :=
        field_runAt whole word
      have payload : ¬ o + 2 + (image.word o).toNat ≤ image.length := by omega
      simp only [if_pos word, reached, if_neg payload]
      refine finds_fault (show (decode image).runAt o = (_, o + 2) from ?_)
      simp only [decode, runAt_bind, get_runAt, need_runAt, Image.claim, if_pos word, length,
        if_neg payload]
    · simp only [if_neg word]
      refine finds_fault (show (decode image).runAt o = (_, o) from ?_)
      simp only [decode, runAt_bind, get_runAt, need_runAt, Image.claim, if_neg word]

end Tap

namespace Tape

variable {t : Tape} {head : Nat}

theorem decode_finds (whole : t.image.Whole) (inside : head < t.length) :
    t.decode.Finds Block.size head (t.blockAt? head) := by
  simp only [decode, blockAt?]
  cases t.format with
  | tap => exact (Tap.decode_finds whole inside).map fun _ => rfl
  | tzx => exact (Tzx.decode_finds whole inside).map fun _ => rfl

/-- The head ends where the block does, and wherever a fault was raised, it is put back. -/
theorem readNext_eq (whole : t.image.Whole) (head : Nat) :
    t.readNext.runAt head = (t.blockAt? head, headAfter head (t.blockAt? head)) := by
  rcases Nat.lt_or_ge head t.length with inside | behind
  · obtain ⟨found, head', moved, place, size⟩ := decode_finds whole inside
    have read : t.readNext.runAt head =
        match t.decode.runAt head with
        | (.ok b, head') => (.ok (some b), head')
        | (.error fault, _) => (.error fault, head) := by
      simp only [readNext, runAt_bind, get_runAt, if_neg (Nat.not_le.2 inside), tryCatch_runAt]
      rcases t.decode.runAt head with ⟨_ | _, _⟩ <;> rfl
    rw [read, moved, place]
    cases found with
    | error => rfl
    | ok b => rw [size b rfl]; rfl
  · rw [blockAt?_of_length_le behind, readNext, runAt_bind, get_runAt]
    simp only [if_pos behind]
    rfl

def faultAt (t : Tape) (stop : Nat) : Option ReadFault :=
  match t.blockAt? stop with
  | .ok _ => none
  | .error fault => some fault

/-- From wherever it begins, a scan goes through a row of no more blocks than there are bytes, and
stops where there is no further block. -/
theorem scanFrom_stops (head : Nat) (found : Array Block) :
    ∃ bs stop, t.Row head bs stop ∧ bs.length ≤ t.length - head ∧
      (∀ b, t.blockAt? stop ≠ .ok (some b)) ∧
      t.scanFrom head found = ⟨found ++ bs.toArray, stop, t.faultAt stop⟩ := by
  fun_induction scanFrom t head found with
  | case1 head found inside fault read =>
    exact ⟨[], head, .nil head, Nat.zero_le _, by simp [read], by simp [faultAt, read]⟩
  | case2 head found inside read =>
    exact ⟨[], head, .nil head, Nat.zero_le _, by simp [read], by simp [faultAt, read]⟩
  | case3 head found inside b read ih =>
    obtain ⟨bs, stop, row, few, none, scanned⟩ := ih
    have := b.size_pos
    refine ⟨b :: bs, stop, .cons read row, ?_, none, by simp [scanned]⟩
    rw [List.length_cons]
    omega
  | case4 head found behind =>
    have read : t.blockAt? head = .ok none := blockAt?_of_length_le (Nat.not_lt.1 behind)
    exact ⟨[], head, .nil head, Nat.zero_le _, by simp [read], by simp [faultAt, read]⟩

theorem blockAt?_unknown (whole : t.image.Whole) (tzx : t.format = .tzx) (inside : head < t.length)
    (unknown : Tzx.Tag.ofByte? (t.image.byte head) = none) :
    t.blockAt? head = .error (.unknownBlock (t.image.byte head) head) := by
  have reached : t.image.reach head 1 = .ok () := if_pos (.inr (whole ▸ inside))
  have there : ¬ t.image.length ≤ head := Nat.not_le.2 inside
  simp only [blockAt?, tzx, Tzx.blockAt?, if_neg there, reached, unknown]
  rfl

theorem fault_cases (whole : t.image.Whole) {fault : ReadFault}
    (read : t.blockAt? head = .error fault) :
    (∃ what offset needed available, fault = .truncated what offset needed available) ∨
      ∃ id, fault = .unknownBlock id head := by
  have inside : head < t.length := by
    by_contra behind
    rw [blockAt?_of_length_le (Nat.not_lt.1 behind)] at read
    exact nomatch read
  by_cases known : t.format = .tzx → ∃ tag, Tzx.Tag.ofByte? (t.image.byte head) = some tag
  · have short := onlyCut_blockAt? whole known fault read
    cases fault with
    | truncated what offset needed available => exact .inl ⟨_, _, _, _, rfl⟩
    | wrongSignature | unknownBlock | unexpectedEnd => exact nomatch short
  · obtain ⟨tzx, unknown⟩ := Classical.not_imp.1 known
    have unknown := Option.eq_none_iff_forall_ne_some.2 (not_exists.1 unknown)
    rw [blockAt?_unknown whole tzx inside unknown] at read
    exact .inr ⟨_, (Except.error.inj read).symm⟩

end Tape

open Tape

/-- On a tape that has been opened, from wherever the head is: behind the last byte, and only there,
there is nothing to read. A block begins at the head and takes it to its end, which is further on
and on the tape. Else bytes are missing or an id is unknown, and the head is where it was. So a scan
from anywhere stops, having read no more blocks than there are bytes. -/
theorem reads_on {t : Tape} (opened : Tape.ofImage t.format (.ofBytes t.image.bytes) = .ok t)
    (head : Nat) :
    (∃ head', t.readNext.runAt head = (t.blockAt? head, head') ∧
      match t.blockAt? head with
      | .ok none => t.length ≤ head ∧ head' = head
      | .ok (some b) => b.offset = head ∧ head < b.stop ∧ b.stop ≤ t.length ∧ head' = b.stop
      | .error (.truncated ..) => head < t.length ∧ head' = head
      | .error (.unknownBlock _ offset) => head < t.length ∧ head' = head ∧ offset = head
      | .error _ => False) ∧
    ∃ bs stop, t.Row head bs stop ∧ bs.length ≤ t.length - head ∧
      (∀ b, t.blockAt? stop ≠ .ok (some b)) ∧
      t.scanAt head = ⟨bs.toArray, stop, t.faultAt stop⟩ := by
  have whole : t.image.Whole := by
    rw [(Tape.of_ofImage opened).2.1]
    exact Image.whole_ofBytes _
  constructor
  · refine ⟨_, readNext_eq whole head, ?_⟩
    rcases read : t.blockAt? head with fault | found
    · have inside : head < t.length := by
        by_contra behind
        rw [blockAt?_of_length_le (Nat.not_lt.1 behind)] at read
        exact nomatch read
      rcases fault_cases whole read with ⟨what, offset, needed, available, rfl⟩ | ⟨id, rfl⟩
      · exact ⟨inside, rfl⟩
      · exact ⟨inside, rfl, rfl⟩
    · cases found with
      | none => exact ⟨length_le_of_blockAt?_none whole read, rfl⟩
      | some b =>
        obtain ⟨rfl, fits⟩ := blockAt?_fits whole read
        exact ⟨rfl, Nat.lt_add_of_pos_right b.size_pos, fits, rfl⟩
  · obtain ⟨bs, stop, row, few, none, scanned⟩ := t.scanFrom_stops head #[]
    exact ⟨bs, stop, row, few, none, by simpa [scanAt] using scanned⟩

/-- A pause, and a block of five bytes with only one of them left: its header is read, and then the
head is put back in front of it. -/
theorem reads_on_cut :
    let t : Tape := ⟨.tzx, .ofBytes (Tzx.magic ++ #[1, 20, 0x20, 7, 0, 0x10, 1, 0, 5, 0, 9]),
      some (1, 20)⟩
    Tape.ofImage t.format (.ofBytes t.image.bytes) = .ok t ∧
      t.readNext.runAt 13 = (.error (.truncated "TZX Standard Speed data" 18 5 1), 13) ∧
      t.readNext.runAt 10 = (.ok (some (.tzx ⟨10, 2, .pause 7⟩)), 13) ∧
      ∃ bs stop, t.Row 10 bs stop ∧ bs.length ≤ 9 ∧
        t.scanAt 10 = ⟨bs.toArray, stop, t.faultAt stop⟩ := by
  intro t
  have opened : Tape.ofImage t.format (.ofBytes t.image.bytes) = .ok t := rfl
  have cut : t.blockAt? 13 = .error (.truncated "TZX Standard Speed data" 18 5 1) := by
    decide +kernel
  have pause : t.blockAt? 10 = .ok (some (.tzx ⟨10, 2, .pause 7⟩)) := by decide +kernel
  obtain ⟨⟨head, failed, outcome⟩, -⟩ := reads_on opened 13
  obtain ⟨⟨head', read, outcome'⟩, bs, stop, row, few, -, scanned⟩ := reads_on opened 10
  rw [cut] at failed outcome
  rw [pause] at read outcome'
  obtain ⟨-, rfl⟩ := outcome
  obtain ⟨-, -, -, rfl⟩ := outcome'
  exact ⟨opened, failed, read, bs, stop, row, few, scanned⟩

end Cassette
