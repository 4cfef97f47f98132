import Cassette.Proofs.Spelling
import Cassette.Settings.Reader

/-! Settings survive JSON, whole or in part. A field that is given has the value that was
printed for it, whatever the order of the members and whatever else stands among them; a
field that is not given keeps its standard value. The same holds one level down, of the
timings. -/

namespace Cassette

open Json

namespace Json

namespace Piece

theorem textFrom_chars (cs : List Char) : textFrom none (cs.map char) = some cs := by
  induction cs with
  | nil => rfl
  | cons c cs ih => simp [textFrom, ih]

@[simp]
theorem text?_ofString (s : String) : text? (ofString s) = some s := by
  simp [text?, ofString, textFrom_chars]

theorem ofString_inj {s t : String} : ofString s = ofString t ↔ s = t :=
  ⟨fun h => Option.some.inj (by rw [← text?_ofString s, h, text?_ofString]), congrArg _⟩

end Piece

namespace Value

theorem toNat?_ofNat (n : Nat) : (ofNat n).toNat? = some n := by
  have hd : (Nat.toDigits 10 n).all Char.isDigit :=
    List.all_eq_true.2 fun _ hc => Nat.isDigit_of_mem_toDigits (by decide) (by decide) hc
  have hv : digitsValue (Nat.toDigits 10 n) = n := by
    rw [digitsValue, ← Nat.ofDigitChars_eq_foldl]
    exact Nat.ofDigitChars_toDigits (by decide) (by decide)
  simp [ofNat, toNat?, hd, hv]

@[simp]
theorem toWord?_ofWord (w : UInt16) : (ofWord w).toWord? = some w := by
  simp [ofWord, toWord?, toNat?_ofNat, w.toNat_lt]

@[simp]
theorem toOptionalLong?_ofOption (n? : Option UInt32) :
    (ofOption (fun n => ofNat n.toNat) n?).toOptionalLong? = some n? := by
  cases n? with
  | none => rfl
  | some n =>
    change (do let m ← (ofNat n.toNat).toNat?; _) = _
    simp [toNat?_ofNat, n.toNat_lt]

theorem legible_ofNat (n : Nat) : (ofNat n).Legible :=
  List.forall_mem_singleton.2 (Token.legible_toDigits n)

theorem legible_ofOption {α : Type} {f : α → Value} (h : ∀ x, (f x).Legible) (x? : Option α) :
    (ofOption f x?).Legible := by
  cases x? with
  | none => exact List.forall_mem_singleton.2 rfl
  | some x => exact h x

theorem legible_ofString {s : String} (h : ∀ p ∈ Piece.ofString s, p.Legible) :
    (ofString s).Legible :=
  List.forall_mem_singleton.2 (Token.legible_string h)

theorem legible_ofFields {fs : List (String × Value)}
    (hk : ∀ key ∈ fs.map Prod.fst, ∀ p ∈ Piece.ofString key, p.Legible)
    (hv : ∀ v ∈ fs.map Prod.snd, v.Legible) : (ofFields fs).Legible := by
  refine legible_object (List.forall_mem_map.2 fun m hm => ?_)
  exact ⟨hk m.1 (List.mem_map_of_mem hm), hv m.2 (List.mem_map_of_mem hm)⟩

def members : Value → List (List Piece × Value)
  | object ms => ms
  | _ => []

/-- The object has the value under the key, which is spelled plainly. -/
def Has (o : Value) (key : String) (v : Value) : Prop := (Piece.ofString key, v) ∈ o.members

@[simp]
theorem has_ofFields {fs : List (String × Value)} {key : String} {v : Value} :
    (ofFields fs).Has key v ↔ (key, v) ∈ fs := by
  simp [Has, ofFields, members, Piece.ofString_inj]

end Value

def keysOf (ms : List (List Piece × Value)) : List String := ms.filterMap (Piece.text? ·.1)

theorem keysOf_ofFields (fs : List (String × Value)) :
    keysOf (Value.ofFields fs).members = fs.map Prod.fst := by
  simp [keysOf, Value.ofFields, Value.members, List.filterMap_map]

end Json

namespace Model

@[simp]
theorem toNamed?_name (m : Model) : (Value.ofString m.name).toNamed? names = some m := by
  have hm : names.lookup m.name = some m := by cases m <;> decide
  simp [Value.ofString, Value.toNamed?, hm]

theorem legible_name (m : Model) : (Value.ofString m.name).Legible :=
  Value.legible_ofString (by cases m <;> decide)

end Model

namespace LineMode

@[simp]
theorem toNamed?_name (m : LineMode) : (Value.ofString m.name).toNamed? names = some m := by
  have hm : names.lookup m.name = some m := by cases m <;> decide
  simp [Value.ofString, Value.toNamed?, hm]

theorem legible_name (m : LineMode) : (Value.ofString m.name).Legible :=
  Value.legible_ofString (by cases m <;> decide)

end LineMode

namespace Field

variable {σ : Type} {fields : List (Field σ)} {written : String → Value → Prop}
  {given : List String → σ → σ} {ms : List (List Piece × Value)}

/-- The members give some of the fields, each at most once and as it is written. The other
members may be anything, if only their keys are texts. -/
structure Gives (fields : List (Field σ)) (written : String → Value → Prop)
    (ms : List (List Piece × Value)) : Prop where
  texts : ∀ m ∈ ms, (Piece.text? m.1).isSome
  once : ∀ f ∈ fields, (keysOf ms).count f.key ≤ 1
  values : ∀ m ∈ ms, ∀ f ∈ fields, Piece.text? m.1 = some f.key → written f.key m.2

/-- Setting fields to what is written under their keys comes to `given`. -/
structure Fills (fields : List (Field σ)) (written : String → Value → Prop)
    (given : List String → σ → σ) : Prop where
  nil : ∀ s, given [] s = s
  cons : ∀ key keys s, given (key :: keys) s = given keys (given [key] s)
  set : ∀ f ∈ fields, ∀ v s, written f.key v → f.set v s = some (given [f.key] s)
  skip : ∀ key s, (∀ f ∈ fields, f.key ≠ key) → given [key] s = s

theorem Gives.tail {m : List Piece × Value} (hg : Gives fields written (m :: ms)) :
    Gives fields written ms where
  texts n hn := hg.texts n (List.mem_cons_of_mem _ hn)
  once f hf := ((List.sublist_cons_self m ms).filterMap _ |>.count_le _).trans (hg.once f hf)
  values n hn := hg.values n (List.mem_cons_of_mem _ hn)

/-- The members are filled in one after the other. The induction is on them, for any start and
any keys that do not come again. -/
theorem Gives.setMembers (hg : Gives fields written ms) (hf : Fills fields written given)
    {seen : List String} (hs : ∀ f ∈ fields, f.key ∈ seen → f.key ∉ keysOf ms) (s : σ) :
    setMembers fields seen ms s = some (given (keysOf ms) s) := by
  induction ms generalizing seen s with
  | nil => simp [Field.setMembers, keysOf, hf.nil]
  | cons m ms ih =>
    obtain ⟨key, hkey⟩ := Option.isSome_iff_exists.1 (hg.texts m List.mem_cons_self)
    have hkeys : keysOf (m :: ms) = key :: keysOf ms := by simp [keysOf, hkey]
    rw [hkeys, hf.cons]
    rw [hkeys] at hs
    simp only [Field.setMembers, hkey, Option.bind_eq_bind, Option.bind_some]
    -- An unknown member is passed over; a known one sets its field, and its key is now taken.
    cases hfind : fields.find? (·.key == key) with
    | none =>
      have hnew : ∀ f ∈ fields, f.key ≠ key := by simpa using hfind
      rw [hf.skip key s hnew]
      exact ih hg.tail (fun f hm hin hk => hs f hm hin (List.mem_cons_of_mem _ hk)) s
    | some f =>
      have hm : f ∈ fields := List.mem_of_find?_eq_some hfind
      obtain rfl : f.key = key := by simpa using List.find?_some hfind
      have hunseen : f.key ∉ seen := fun hin => hs f hm hin List.mem_cons_self
      have honce : f.key ∉ keysOf ms := by
        have h := hg.once f hm
        rw [hkeys, List.count_cons_self] at h
        exact List.count_eq_zero.1 (by omega)
      simp only [hunseen, if_false,
        hf.set f hm _ s (hg.values m List.mem_cons_self f hm hkey), Option.bind_some]
      refine ih hg.tail (fun g hgm hin => ?_) _
      obtain heq | hin := List.mem_cons.1 hin
      · exact heq ▸ honce
      · exact fun hk => hs g hgm hin (List.mem_cons_of_mem _ hk)

theorem Gives.read (hg : Gives fields written ms) (hf : Fills fields written given) (s : σ) :
    read fields s (.object ms) = some (given (keysOf ms) s) :=
  hg.setMembers hf (fun _ _ h => absurd h List.not_mem_nil) s

theorem gives_ofFields {fs : List (String × Value)}
    (hn : ∀ f ∈ fields, (fs.map Prod.fst).count f.key ≤ 1)
    (hw : ∀ m ∈ fs, ∀ f ∈ fields, m.1 = f.key → written m.1 m.2) :
    Gives fields written (Value.ofFields fs).members where
  texts := by
    simp only [Value.ofFields, Value.members, List.mem_map]
    rintro _ ⟨m, _, rfl⟩
    simp
  once f hf := by
    rw [keysOf_ofFields]
    exact hn f hf
  values := by
    simp only [Value.ofFields, Value.members, List.mem_map]
    rintro _ ⟨m, hm, rfl⟩ f hf hk
    have hkey : m.1 = f.key := by simpa using hk
    exact hkey ▸ hw m hm f hf hkey

def pick {α : Type} (keys : List String) (key : String) (new old : α) : α :=
  if key ∈ keys then new else old

theorem pick_cons {α : Type} (k : String) (keys : List String) (key : String) (new old : α) :
    pick (k :: keys) key new old = pick keys key new (pick [k] key new old) := by
  by_cases h : key = k <;> simp [pick, h]

end Field

namespace Timings

open Cassette.Field (Fills Gives pick pick_cons)

/-- The timings with those of `c` that are given. -/
def given (c : Timings) (keys : List String) (t : Timings) : Timings where
  pilotPulse := pick keys "pilot_pulse" c.pilotPulse t.pilotPulse
  sync1 := pick keys "sync1" c.sync1 t.sync1
  sync2 := pick keys "sync2" c.sync2 t.sync2
  zeroPulse := pick keys "zero_pulse" c.zeroPulse t.zeroPulse
  onePulse := pick keys "one_pulse" c.onePulse t.onePulse
  headerPilot := pick keys "header_pilot_count" c.headerPilot t.headerPilot
  dataPilot := pick keys "data_pilot_count" c.dataPilot t.dataPilot

theorem fills (c : Timings) : Fills fields c.toJson.Has c.given where
  nil _ := rfl
  cons key keys t := by simp only [given, pick_cons key keys]
  set f hf v t hv := by
    simp only [fields, List.mem_cons, List.not_mem_nil, or_false] at hf
    rcases hf with rfl | rfl | rfl | rfl | rfl | rfl | rfl <;>
      (simp [toJson] at hv; simp [hv, given, pick])
  skip key t h := by
    simp only [fields, List.forall_mem_cons] at h
    simp [given, pick, h]

theorem gives_toJson (c : Timings) : Gives fields c.toJson.Has c.toJson.members :=
  Field.gives_ofFields (by simp [fields]) fun _ hm _ _ _ => Value.has_ofFields.2 hm

theorem ofJson?_toJson (c : Timings) : ofJson? c.toJson = some c :=
  (c.gives_toJson.read c.fills .rom).trans (by simp [toJson, keysOf_ofFields, given, pick])

theorem legible_toJson (c : Timings) : c.toJson.Legible := by
  apply Value.legible_ofFields
  · simp only [List.map]
    decide
  · simp [Value.ofWord, Value.legible_ofNat]

end Timings

namespace Settings

open Cassette.Field (Fills Gives pick pick_cons)

/-- The settings with those of `c` that are given. -/
def given (c : Settings) (keys : List String) (s : Settings) : Settings where
  model := pick keys "model" c.model s.model
  clock? := pick keys "clock_hz" c.clock? s.clock?
  timings := pick keys "timings" c.timings s.timings
  blockPauseMs := pick keys "tap_pause_ms" c.blockPauseMs s.blockPauseMs
  lineMode := pick keys "realtape_mode" c.lineMode s.lineMode

/-- What is written under a key: what the whole has there, but of the timings only some. -/
def Writes (c : Settings) (ts : List (List Piece × Value)) (key : String) (v : Value) : Prop :=
  if key = "timings" then v = .object ts else c.toJson.Has key v

theorem fills {c : Settings} {ts : List (List Piece × Value)} {t : Timings}
    (ht : Timings.ofJson? (.object ts) = some t) :
    Fills fields (c.Writes ts) { c with timings := t }.given where
  nil _ := rfl
  cons key keys s := by simp only [given, pick_cons key keys]
  set f hf v s hv := by
    simp only [fields, List.mem_cons, List.not_mem_nil, or_false] at hf
    rcases hf with rfl | rfl | rfl | rfl | rfl <;>
      (simp [Writes, toJson] at hv; simp [hv, ht, given, pick])
  skip key s h := by
    simp only [fields, List.forall_mem_cons] at h
    simp [given, pick, h]

theorem writes_whole {c : Settings} {key : String} {v : Value} (h : c.toJson.Has key v) :
    c.Writes c.timings.toJson.members key v := by
  rw [Writes]
  split
  case isTrue hkey =>
    subst hkey
    have hv : v = c.timings.toJson := by simpa [toJson] using h
    exact hv
  case isFalse => exact h

theorem gives_toJson (c : Settings) :
    Gives fields (c.Writes c.timings.toJson.members) c.toJson.members :=
  Field.gives_ofFields (by simp [fields]) fun _ hm _ _ _ => writes_whole (Value.has_ofFields.2 hm)

theorem ofJson?_toJson (c : Settings) : ofJson? c.toJson = some c :=
  (c.gives_toJson.read (fills c.timings.ofJson?_toJson) .standard).trans
    (by simp [toJson, keysOf_ofFields, given, pick])

theorem legible_toJson (c : Settings) : c.toJson.Legible := by
  apply Value.legible_ofFields
  · simp only [List.map]
    decide
  · simp [Value.ofWord, Value.legible_ofNat, c.timings.legible_toJson, c.model.legible_name,
      c.lineMode.legible_name, Value.legible_ofOption]

/-- The standard settings with what is given of `c` and of its timings. -/
def partly (c : Settings) (keys timingKeys : List String) : Settings :=
  { c with timings := c.timings.given timingKeys .rom }.given keys .standard

theorem ofJson?_partly {c : Settings} {ms ts : List (List Piece × Value)}
    (hts : Gives Timings.fields c.timings.toJson.Has ts) (hms : Gives fields (c.Writes ts) ms) :
    ofJson? (.object ms) = some (c.partly (keysOf ms) (keysOf ts)) := by
  have read : Timings.ofJson? (.object ts) = some (c.timings.given (keysOf ts) .rom) :=
    hts.read c.timings.fills .rom
  exact hms.read (fills read) .standard

theorem parse?_of_spaced {c : Settings} {text : String} (h : Spaced c.toJson.tokens text.toList) :
    parse? text = some c := by
  simp [parse?, Value.parse?_of_spaced h c.legible_toJson, c.ofJson?_toJson]

/-- Members in any order that give some of the settings and of the timings as they are printed,
with others among them, read as those and the standard values for the rest: in every text that
spells such an object, and legible tokens spell it with whatever blanks. -/
theorem parse_partly {c : Settings} {ms ts : List (List Piece × Value)}
    (hts : Gives Timings.fields c.timings.toJson.Has ts) (hms : Gives fields (c.Writes ts) ms) :
    (∀ text, Value.parse? text = some (.object ms) →
      parse? text = some (c.partly (keysOf ms) (keysOf ts))) ∧
    ((Value.object ms).Legible → ∀ text : String, Spaced (Value.object ms).tokens text.toList →
      parse? text = some (c.partly (keysOf ms) (keysOf ts))) ∧
    parse? c.print = some c ∧ parse? c.toJson.pretty = some c := by
  have read : ∀ text, Value.parse? text = some (.object ms) →
      parse? text = some (c.partly (keysOf ms) (keysOf ts)) := by
    intro text h
    simp [parse?, h, ofJson?_partly hts hms]
  refine ⟨read, fun legible text h => read text (Value.parse?_of_spaced h legible), ?_, ?_⟩
  · exact parse?_of_spaced c.toJson.spaced_compact
  · exact parse?_of_spaced c.toJson.spaced_pretty

def saver : Settings where
  model := .pentagon128
  clock? := some 7000000
  timings := { Timings.rom with zeroPulse := 500 }
  blockPauseMs := 65535
  lineMode := .forceSave

def someTimings : List (List Piece × Value) :=
  (Value.ofFields [("note", .array [.null, .object []]), ("zero_pulse", .ofWord 500)]).members

def someSettings : List (List Piece × Value) :=
  (Value.ofFields [("realtape_mode", .ofString "force-save"), ("volume", .number "-1.5e3".toList),
    ("timings", .object someTimings), ("volume", .null), ("clock_hz", .ofNat 7000000)]).members

theorem parse_partly_saver :
    Gives Timings.fields saver.timings.toJson.Has someTimings ∧
    Gives fields (saver.Writes someTimings) someSettings ∧
    parse? ("\x7b\"realtape_mode\": \"force-save\", \"volume\": -1.5e3,\n\"timings\": " ++
      "\x7b\"note\": [null, \x7b\x7d], \"zero_pulse\":500\x7d, \"volume\":null, " ++
      "\"clock_hz\": 7000000 \x7d") =
      some { Settings.standard with
        clock? := some 7000000
        timings := { Timings.rom with zeroPulse := 500 }
        lineMode := .forceSave } := by
  have hts : Gives Timings.fields saver.timings.toJson.Has someTimings :=
    Field.gives_ofFields (by decide) (by simp [Timings.fields, Timings.toJson, saver])
  have hms : Gives fields (saver.Writes someTimings) someSettings :=
    Field.gives_ofFields (by decide) (by
      simp [fields, Writes, toJson, saver, LineMode.name, Value.ofOption])
  refine ⟨hts, hms, ((parse_partly hts hms).1 _ ?_).trans (by decide)⟩
  exact Value.parse?_of_tokens (by decide +kernel)

end Settings

end Cassette
