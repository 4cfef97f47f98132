import Cassette.Proofs.Reading
import Cassette.Tzx.Block

/-! The bodies of TZX blocks. `bodySize` and `kindAt` are the size and the fields of a body
written without checks; reading succeeds just when that many bytes are there
(`readBody_eq_ok_iff`). Both look at nothing but these bytes, so a body that stands elsewhere
is read as the same there, its payload carried along (`kindAt_moved`). -/

namespace Cassette.Tzx

open Image (Same Whole)

variable {α δ ε τ : Type} {image : Image} {offset length body : Nat} {what : String} {r : α}

/-! ### Reading without checks -/

theorem payloadAt_bind_ok {f : Span → Except ReadFault α} :
    (payloadAt image offset length what >>= f) = .ok r
      ↔ offset + length ≤ image.length ∧ f ⟨offset, length⟩ = .ok r := by
  rw [payloadAt, bind_assoc, Image.claim_bind_ok, pure_bind]

def textAt (image : Image) (offset : Nat) : String :=
  Text.Utf8.decode (image.slice (offset + 1) (image.byte offset).toNat)

theorem measuredText_bind_ok (whole : image.Whole) {f : String × Nat → Except ReadFault α} :
    (measuredText image offset what >>= f) = .ok r
      ↔ offset + 1 ≤ image.length ∧ offset + 1 + (image.byte offset).toNat ≤ image.length ∧
        f (textAt image offset, 1 + (image.byte offset).toNat) = .ok r := by
  simp only [measuredText, bind_assoc, Image.fetch_bind_ok whole, pure_bind, textAt]

def bodySize (image : Image) (body : Nat) : Tag → Nat
  | .standardSpeed => 4 + (image.word (body + 2)).toNat
  | .turboSpeed => 18 + image.number (body + 15) 3
  | .pureTone => 4
  | .pulseSequence => 1 + 2 * (image.byte body).toNat
  | .pureData => 10 + image.number (body + 7) 3
  | .directRecording => 8 + image.number (body + 5) 3
  | .csw => 14 + (image.number body 4 - 10)
  | .pause => 2
  | .groupStart => 1 + (image.byte body).toNat
  | .groupEnd => 0
  | .jump => 2
  | .loopStart => 2
  | .loopEnd => 0
  | .callSequence => 2 + 2 * (image.word body).toNat
  | .callReturn => 0
  | .select => 2 + (image.word body).toNat
  | .stopIf48K => 4
  | .signalLevel => 5
  | .description => 1 + (image.byte body).toNat
  | .message => 1 + (1 + (image.byte (body + 1)).toNat)
  | .archive => 2 + (image.word body).toNat
  | .hardware => 1 + 3 * (image.byte body).toNat
  | .custom => 20 + image.number (body + 16) 4
  | .glue => 9

def kindAt (image : Image) (body : Nat) : Tag → Kind Span String
  | .standardSpeed =>
    .standardSpeed (image.word body) ⟨body + 4, (image.word (body + 2)).toNat⟩
  | .turboSpeed =>
    .turboSpeed (image.word body) (image.word (body + 2)) (image.word (body + 4))
      (image.word (body + 6)) (image.word (body + 8)) (image.word (body + 10))
      (image.byte (body + 12)) (image.word (body + 13)) ⟨body + 18, image.number (body + 15) 3⟩
  | .pureTone => .pureTone (image.word body) (image.word (body + 2))
  | .pulseSequence => .pulseSequence (image.words (body + 1) (image.byte body).toNat)
  | .pureData =>
    .pureData (image.word body) (image.word (body + 2)) (image.byte (body + 4))
      (image.word (body + 5)) ⟨body + 10, image.number (body + 7) 3⟩
  | .directRecording =>
    .directRecording (image.word body) (image.word (body + 2)) (image.byte (body + 4))
      ⟨body + 8, image.number (body + 5) 3⟩
  | .csw =>
    .csw (image.word (body + 4)) (image.number (body + 6) 3) (.ofByte (image.byte (body + 9)))
      (UInt32.ofNat (image.number (body + 10) 4)) ⟨body + 14, image.number body 4 - 10⟩
  | .pause => .pause (image.word body)
  | .groupStart => .groupStart (textAt image body)
  | .groupEnd => .groupEnd
  | .jump => .jump (image.word body).toInt16
  | .loopStart => .loopStart (image.word body)
  | .loopEnd => .loopEnd
  | .callSequence =>
    .callSequence ((image.words (body + 2) (image.word body).toNat).map UInt16.toInt16)
  | .callReturn => .callReturn
  | .select => .select
  | .stopIf48K => .stopIf48K
  | .signalLevel => .signalLevel (image.byte (body + 4) != 0)
  | .description => .description (textAt image body)
  | .message => .message (textAt image (body + 1))
  | .archive => .archive
  | .hardware => .hardware
  | .custom => .custom
  | .glue => .glue

/-- The length word of packed samples covers the fields behind it. -/
def lengthCovers (image : Image) (body : Nat) (tag : Tag) : Prop :=
  tag = .csw → 10 ≤ image.number body 4

theorem readBody_of_fits (whole : image.Whole) {tag : Tag} (covers : lengthCovers image body tag)
    (fits : body + bodySize image body tag ≤ image.length) :
    readBody image body tag = .ok (kindAt image body tag, bodySize image body tag) := by
  cases tag
  case csw =>
    have long := covers rfl
    simp only [bodySize] at fits
    simp only [readBody, if_neg (Nat.not_lt.2 long), Image.claim_bind_ok,
      Image.reach_bind_ok whole, payloadAt_bind_ok]
    exact ⟨by omega, by omega, by omega, by omega, rfl⟩
  all_goals
    simp only [bodySize] at fits
    simp only [readBody, Image.fetch_bind_ok whole, Image.claim_bind_ok, Image.reach_bind_ok whole,
      payloadAt_bind_ok, measuredText_bind_ok whole, kindAt, bodySize, Nat.add_zero, pure,
      Except.pure, and_true] <;> omega

theorem fits_of_readBody (whole : image.Whole) {tag : Tag} {kind : Kind Span String} {size : Nat}
    (inside : body ≤ image.length) (h : readBody image body tag = .ok (kind, size)) :
    lengthCovers image body tag ∧ body + bodySize image body tag ≤ image.length := by
  cases tag
  case csw =>
    simp only [readBody, Image.claim_bind_ok, Image.reach_bind_ok whole] at h
    obtain ⟨-, -, h⟩ := h
    split at h
    · simp at h
    · next long =>
      simp only [Image.reach_bind_ok whole, payloadAt_bind_ok] at h
      exact ⟨fun _ => by omega, by simp only [bodySize]; omega⟩
  all_goals
    refine ⟨fun same => absurd same (by decide), ?_⟩
    simp only [readBody, Image.fetch_bind_ok whole, Image.claim_bind_ok, Image.reach_bind_ok whole,
      payloadAt_bind_ok, measuredText_bind_ok whole, Nat.add_zero] at h
    simp only [bodySize]
    omega

/-- Reading a body succeeds just when all its bytes are there. -/
theorem readBody_eq_ok_iff (whole : image.Whole) {tag : Tag} {kind : Kind Span String} {size : Nat}
    (inside : body ≤ image.length) :
    readBody image body tag = .ok (kind, size) ↔
      lengthCovers image body tag ∧ body + size ≤ image.length ∧
      kind = kindAt image body tag ∧ size = bodySize image body tag := by
  constructor
  · intro h
    obtain ⟨covers, fits⟩ := fits_of_readBody whole inside h
    rw [readBody_of_fits whole covers fits] at h
    obtain ⟨rfl, rfl⟩ := Prod.mk.inj (Except.ok.inj h)
    exact ⟨covers, fits, rfl, rfl⟩
  · rintro ⟨covers, fits, rfl, rfl⟩
    exact readBody_of_fits whole covers fits

/-! ### The same bytes elsewhere -/

def Span.moved (old new : Nat) (s : Span) : Span := ⟨new + (s.offset - old), s.length⟩

/-- The kind over payloads named in another way. -/
def Kind.mapData (f : δ → ε) : Kind δ τ → Kind ε τ
  | .standardSpeed pauseMs data => .standardSpeed pauseMs (f data)
  | .turboSpeed pilotPulse sync1 sync2 zeroPulse onePulse pilotLength usedBits pauseMs data =>
    .turboSpeed pilotPulse sync1 sync2 zeroPulse onePulse pilotLength usedBits pauseMs (f data)
  | .pureTone pulse count => .pureTone pulse count
  | .pulseSequence pulses => .pulseSequence pulses
  | .pureData zeroPulse onePulse usedBits pauseMs data =>
    .pureData zeroPulse onePulse usedBits pauseMs (f data)
  | .directRecording ticksPerSample pauseMs usedBits data =>
    .directRecording ticksPerSample pauseMs usedBits (f data)
  | .csw pauseMs sampleRate compression storedPulses data =>
    .csw pauseMs sampleRate compression storedPulses (f data)
  | .pause ms => .pause ms
  | .groupStart name => .groupStart name
  | .groupEnd => .groupEnd
  | .jump displacement => .jump displacement
  | .loopStart repetitions => .loopStart repetitions
  | .loopEnd => .loopEnd
  | .callSequence displacements => .callSequence displacements
  | .callReturn => .callReturn
  | .select => .select
  | .stopIf48K => .stopIf48K
  | .signalLevel level => .signalLevel level
  | .description text => .description text
  | .message text => .message text
  | .archive => .archive
  | .hardware => .hardware
  | .custom => .custom
  | .glue => .glue

section Moved

variable {a b : Image} {i j : Nat} {tag : Tag}

theorem textAt_moved {count : Nat} (s : Same a i b j count) (fits : 1 + (a.byte i).toNat ≤ count) :
    textAt b j = textAt a i := by
  rw [textAt, textAt, s.first (by omega), s.slice_add fits]

theorem bodySize_moved (s : Same a i b j (bodySize a i tag)) :
    bodySize b j tag = bodySize a i tag := by
  cases tag <;> simp only [bodySize] at s ⊢ <;>
    simp (disch := omega) only [s.first, s.byte, s.word, s.word_add, s.number, s.number_add]

/-- A body read elsewhere has the same fields, and its payload lies as far behind its start. -/
theorem kindAt_moved (s : Same a i b j (bodySize a i tag)) :
    kindAt b j tag = (kindAt a i tag).mapData (Span.moved i j) := by
  cases tag
  case message =>
    have text : Same a (i + 1) b (j + 1) (1 + (a.byte (i + 1)).toNat) :=
      s.part (Nat.le_add_right i 1) (Nat.le_of_eq (Nat.add_assoc i 1 _)) (by omega)
    rw [kindAt, kindAt, Kind.mapData, textAt_moved text (Nat.le_refl _)]
  all_goals
    simp only [bodySize] at s
    simp (disch := omega) only [kindAt, Kind.mapData, Span.moved, Nat.add_sub_cancel_left, s.first,
      s.byte, s.word, s.word_add, s.words_add, s.number, s.number_add, textAt_moved s]

theorem lengthCovers_moved (s : Same a i b j (bodySize a i tag)) (covers : lengthCovers a i tag) :
    lengthCovers b j tag := by
  rintro rfl
  simp only [bodySize] at s
  rw [s.number (by omega)]
  exact covers rfl

end Moved

theorem data_kindAt {tag : Tag} {data : Span} (h : (kindAt image body tag).data? = some data) :
    body ≤ data.offset ∧ data.stop = body + bodySize image body tag := by
  cases tag <;> simp only [kindAt, Kind.data?, reduceCtorEq, Option.some.injEq] at h
  all_goals
    subst h
    simp only [Span.stop, bodySize]
    omega

theorem Kind.data?_mapData (f : δ → ε) (k : Kind δ τ) : (k.mapData f).data? = k.data?.map f := by
  cases k <;> rfl

theorem Kind.mapData_congr {f g : δ → ε} {k : Kind δ τ}
    (h : ∀ data, k.data? = some data → f data = g data) : k.mapData f = k.mapData g := by
  cases k <;> simp only [Kind.mapData]
  all_goals
    rw [h _ rfl]

theorem Kind.mapData_eq_self {f : δ → δ} {k : Kind δ τ}
    (h : ∀ data, k.data? = some data → f data = data) : k.mapData f = k := by
  cases k <;> simp only [Kind.mapData]
  all_goals
    rw [h _ rfl]

end Cassette.Tzx
