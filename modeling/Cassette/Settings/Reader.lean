import Cassette.Settings.Printer

/-! Settings from JSON. What is not given keeps its standard value and unknown members
of an object are passed over, but a member given twice is refused. A record may also
be an array of its fields in order, cut short at will, and a name may be an object
with that one key and null. Numbers must be spelled in digits alone and fit. -/

namespace Cassette

open Json

/-- A field of a record: its key and how a value changes the record. -/
structure Field (σ : Type) where
  key : String
  set : Value → σ → Option σ

namespace Field

variable {σ : Type}

/-- Fills in fields in order. -/
def setAll : List (Field σ) → List Value → σ → Option σ
  | _, [], s => some s
  | [], _ :: _, _ => none
  | f :: fields, v :: rest, s => (f.set v s).bind (setAll fields rest)

/-- Fills in the known members of an object, each at most once. -/
def setMembers (fields : List (Field σ)) : (seen : List String) → List (List Piece × Value) →
    σ → Option σ
  | _, [], s => some s
  | seen, (pieces, v) :: rest, s => do
    let key ← Piece.text? pieces
    match fields.find? (·.key == key) with
    | none => setMembers fields seen rest s
    | some f =>
      if key ∈ seen then none
      else
        let s ← f.set v s
        setMembers fields (key :: seen) rest s

/-- Reads a record on top of the values it starts with. -/
def read (fields : List (Field σ)) (start : σ) : Value → Option σ
  | .array items => setAll fields items start
  | .object members => setMembers fields [] members start
  | _ => none

end Field

namespace Json.Value

/-- The number that decimal digits spell. -/
def digitsValue (digits : List Char) : Nat :=
  digits.foldl (fun n c => 10 * n + (c.toNat - '0'.toNat)) 0

/-- A number in digits alone. -/
def toNat? : Value → Option Nat
  | number lexeme => if lexeme.all Char.isDigit then some (digitsValue lexeme) else none
  | _ => none

def toWord? (v : Value) : Option UInt16 := do
  let n ← v.toNat?
  if n < UInt16.size then some (UInt16.ofNat n) else none

/-- Null, or a 32-bit number. -/
def toOptionalLong? : Value → Option (Option UInt32)
  | null => some none
  | v => do
    let n ← v.toNat?
    if n < UInt32.size then some (some (UInt32.ofNat n)) else none

/-- One of several names. -/
def toNamed? {α : Type} (names : List (String × α)) : Value → Option α
  | string pieces => do names.lookup (← Piece.text? pieces)
  | object [(pieces, null)] => do names.lookup (← Piece.text? pieces)
  | _ => none

end Json.Value

namespace Timings

def fields : List (Field Timings) :=
  let word (key : String) (set : Timings → UInt16 → Timings) : Field Timings :=
    ⟨key, fun v t => v.toWord?.map (set t)⟩
  [word "pilot_pulse" fun t w => { t with pilotPulse := w },
   word "sync1" fun t w => { t with sync1 := w },
   word "sync2" fun t w => { t with sync2 := w },
   word "zero_pulse" fun t w => { t with zeroPulse := w },
   word "one_pulse" fun t w => { t with onePulse := w },
   word "header_pilot_count" fun t w => { t with headerPilot := w },
   word "data_pilot_count" fun t w => { t with dataPilot := w }]

def ofJson? (v : Value) : Option Timings := Field.read fields .rom v

end Timings

namespace Settings

def fields : List (Field Settings) :=
  [⟨"model", fun v s => (v.toNamed? Model.names).map fun m => { s with model := m }⟩,
   ⟨"clock_hz", fun v s => v.toOptionalLong?.map fun hz => { s with clock? := hz }⟩,
   ⟨"timings", fun v s => (Timings.ofJson? v).map fun t => { s with timings := t }⟩,
   ⟨"tap_pause_ms", fun v s => v.toWord?.map fun w => { s with blockPauseMs := w }⟩,
   ⟨"realtape_mode", fun v s => (v.toNamed? LineMode.names).map fun m => { s with lineMode := m }⟩]

def ofJson? (v : Value) : Option Settings := Field.read fields .standard v

/-- The settings in a text. -/
def parse? (text : String) : Option Settings := do ofJson? (← Value.parse? text)

end Settings

end Cassette
