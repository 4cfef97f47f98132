import Cassette.Bytes

/-! The kinds of TZX block. A tag is the identity of a kind, written as its first
byte; a kind carries the fields that playing or listing it needs. Payloads and
texts are left as parameters: in a file they are runs of bytes, in a decoded block
a payload is the span it occupies and a text is a string. -/

namespace Cassette.Tzx

/-- The kinds whose length can be told. -/
inductive Tag
  | standardSpeed | turboSpeed | pureTone | pulseSequence | pureData | directRecording | csw
  | pause | groupStart | groupEnd | jump | loopStart | loopEnd | callSequence | callReturn
  | select | stopIf48K | signalLevel | description | message | archive | hardware | custom | glue
  deriving DecidableEq, Repr

namespace Tag

def toByte : Tag → UInt8
  | standardSpeed => 0x10
  | turboSpeed => 0x11
  | pureTone => 0x12
  | pulseSequence => 0x13
  | pureData => 0x14
  | directRecording => 0x15
  | csw => 0x18
  | pause => 0x20
  | groupStart => 0x21
  | groupEnd => 0x22
  | jump => 0x23
  | loopStart => 0x24
  | loopEnd => 0x25
  | callSequence => 0x26
  | callReturn => 0x27
  | select => 0x28
  | stopIf48K => 0x2A
  | signalLevel => 0x2B
  | description => 0x30
  | message => 0x31
  | archive => 0x32
  | hardware => 0x33
  | custom => 0x35
  | glue => 0x5A

/-- The kind a first byte announces. -/
def ofByte? : UInt8 → Option Tag
  | 0x10 => some standardSpeed
  | 0x11 => some turboSpeed
  | 0x12 => some pureTone
  | 0x13 => some pulseSequence
  | 0x14 => some pureData
  | 0x15 => some directRecording
  | 0x18 => some csw
  | 0x20 => some pause
  | 0x21 => some groupStart
  | 0x22 => some groupEnd
  | 0x23 => some jump
  | 0x24 => some loopStart
  | 0x25 => some loopEnd
  | 0x26 => some callSequence
  | 0x27 => some callReturn
  | 0x28 => some select
  | 0x2A => some stopIf48K
  | 0x2B => some signalLevel
  | 0x30 => some description
  | 0x31 => some message
  | 0x32 => some archive
  | 0x33 => some hardware
  | 0x35 => some custom
  | 0x5A => some glue
  | _ => none

@[simp] theorem ofByte?_toByte (t : Tag) : ofByte? t.toByte = some t := by cases t <;> rfl

theorem toByte_of_ofByte? {id : UInt8} {t : Tag} (h : ofByte? id = some t) : t.toByte = id := by
  unfold ofByte? at h
  split at h <;> simp at h <;> subst h <;> rfl

/-- A kind as listings call it. -/
def name : Tag → String
  | standardSpeed => "Standard"
  | turboSpeed => "Turbo"
  | pureTone => "Pure Tone"
  | pulseSequence => "Pulse sequence"
  | pureData => "Pure Data"
  | directRecording => "DRB"
  | csw => "CSW"
  | pause => "Pause (ms.)"
  | groupStart => "Group start"
  | groupEnd => "Group end"
  | jump => "Jump to block"
  | loopStart => "Loop start"
  | loopEnd => "Loop end"
  | callSequence => "Call sequence"
  | callReturn => "Return from sequence"
  | select => "Select block"
  | stopIf48K => "Stop if in 48K mode"
  | signalLevel => "Set signal level"
  | description => "Text"
  | message => "Message block"
  | archive => "Archive info"
  | hardware => "Hardware type"
  | custom => "Custom info"
  | glue => "Glue block"

end Tag

/-- The generalized data block is known by name although its length is not. -/
def generalizedDataId : UInt8 := 0x19

/-- The name of a first byte, if it has one. -/
def nameOfId? (id : UInt8) : Option String :=
  match Tag.ofByte? id with
  | some tag => some tag.name
  | none => if id = generalizedDataId then some "GDB" else none

/-- How the samples of a CSW recording are packed. -/
inductive Compression
  | runLength
  | deflated
  | other (code : UInt8)
  deriving DecidableEq, Repr

def Compression.ofByte (code : UInt8) : Compression :=
  if code = 1 then .runLength else if code = 2 then .deflated else .other code

def Compression.toByte : Compression → UInt8
  | .runLength => 1
  | .deflated => 2
  | .other code => code

@[simp] theorem Compression.toByte_ofByte (code : UInt8) : (ofByte code).toByte = code := by
  unfold ofByte
  split
  · next one => exact one.symm
  · split
    · next two => exact two.symm
    · rfl

/-- A block's kind and fields, over a type of payloads and a type of texts. -/
inductive Kind (δ τ : Type)
  | standardSpeed (pauseMs : UInt16) (data : δ)
  | turboSpeed (pilotPulse sync1 sync2 zeroPulse onePulse pilotLength : UInt16)
      (usedBits : UInt8) (pauseMs : UInt16) (data : δ)
  | pureTone (pulse count : UInt16)
  | pulseSequence (pulses : List UInt16)
  | pureData (zeroPulse onePulse : UInt16) (usedBits : UInt8) (pauseMs : UInt16) (data : δ)
  | directRecording (ticksPerSample pauseMs : UInt16) (usedBits : UInt8) (data : δ)
  | csw (pauseMs : UInt16) (sampleRate : Nat) (compression : Compression)
      (storedPulses : UInt32) (data : δ)
  | pause (ms : UInt16)
  | groupStart (name : τ)
  | groupEnd
  | jump (displacement : Int16)
  | loopStart (repetitions : UInt16)
  | loopEnd
  | callSequence (displacements : List Int16)
  | callReturn
  | select
  | stopIf48K
  | signalLevel (level : Bool)
  | description (text : τ)
  | message (text : τ)
  | archive
  | hardware
  | custom
  | glue
  deriving DecidableEq, Repr

namespace Kind

variable {δ τ : Type}

def tag : Kind δ τ → Tag
  | standardSpeed .. => .standardSpeed
  | turboSpeed .. => .turboSpeed
  | pureTone .. => .pureTone
  | pulseSequence .. => .pulseSequence
  | pureData .. => .pureData
  | directRecording .. => .directRecording
  | csw .. => .csw
  | pause .. => .pause
  | groupStart .. => .groupStart
  | groupEnd => .groupEnd
  | jump .. => .jump
  | loopStart .. => .loopStart
  | loopEnd => .loopEnd
  | callSequence .. => .callSequence
  | callReturn => .callReturn
  | select => .select
  | stopIf48K => .stopIf48K
  | signalLevel .. => .signalLevel
  | description .. => .description
  | message .. => .message
  | archive => .archive
  | hardware => .hardware
  | custom => .custom
  | glue => .glue

/-- The payload of the kinds that carry one. -/
def data? : Kind δ τ → Option δ
  | standardSpeed _ data => some data
  | turboSpeed _ _ _ _ _ _ _ _ data => some data
  | pureData _ _ _ _ data => some data
  | directRecording _ _ _ data => some data
  | csw _ _ _ _ data => some data
  | _ => none

end Kind

end Cassette.Tzx
