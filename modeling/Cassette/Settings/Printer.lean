import Cassette.Json.Printer
import Cassette.Settings

/-! Settings as JSON: an object with every field, in a fixed order. -/

namespace Cassette

namespace Model

/-- The models by the names they have in settings. -/
def names : List (String × Model) :=
  [("Spectrum48K", spectrum48K), ("Spectrum128K", spectrum128K),
   ("SpectrumPlus2", spectrumPlus2), ("SpectrumPlus3", spectrumPlus3),
   ("Pentagon128", pentagon128)]

def name : Model → String
  | spectrum48K => "Spectrum48K"
  | spectrum128K => "Spectrum128K"
  | spectrumPlus2 => "SpectrumPlus2"
  | spectrumPlus3 => "SpectrumPlus3"
  | pentagon128 => "Pentagon128"

end Model

namespace LineMode

/-- The modes by the names they have in settings. -/
def names : List (String × LineMode) :=
  [("auto", auto), ("force-load", forceLoad), ("force-save", forceSave)]

def name : LineMode → String
  | auto => "auto"
  | forceLoad => "force-load"
  | forceSave => "force-save"

end LineMode

namespace Json.Value

def ofString (s : String) : Value := string (Piece.ofString s)

def ofNat (n : Nat) : Value := number (Nat.toDigits 10 n)

def ofWord (w : UInt16) : Value := ofNat w.toNat

/-- An object with plain keys. -/
def ofFields (fields : List (String × Value)) : Value :=
  object (fields.map fun (key, v) => (Piece.ofString key, v))

def ofOption {α : Type} (f : α → Value) : Option α → Value
  | none => null
  | some x => f x

end Json.Value

open Json

def Timings.toJson (t : Timings) : Value :=
  .ofFields [("pilot_pulse", .ofWord t.pilotPulse), ("sync1", .ofWord t.sync1),
    ("sync2", .ofWord t.sync2), ("zero_pulse", .ofWord t.zeroPulse),
    ("one_pulse", .ofWord t.onePulse), ("header_pilot_count", .ofWord t.headerPilot),
    ("data_pilot_count", .ofWord t.dataPilot)]

def Settings.toJson (s : Settings) : Value :=
  .ofFields [("model", .ofString s.model.name),
    ("clock_hz", .ofOption (fun hz => .ofNat hz.toNat) s.clock?),
    ("timings", s.timings.toJson), ("tap_pause_ms", .ofWord s.blockPauseMs),
    ("realtape_mode", .ofString s.lineMode.name)]

/-- The text of settings, without blanks. -/
def Settings.print (s : Settings) : String := s.toJson.compact

end Cassette
