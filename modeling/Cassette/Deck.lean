import Cassette.Edit
import Cassette.Order
import Cassette.Player
import Cassette.Recorder
import Cassette.Store
import Cassette.Tap.Frame

/-! The deck: one inserted tape with its player and selection, and a recorder with the
blocks it has recovered. The tape is a file object of a store; its length is measured
when it is opened, its index is made when it is first needed. Edits go to the file,
and all that was derived from it is then made anew. -/

namespace Cassette

/-- A tape in the deck. -/
structure Inserted where
  path : String
  format : Format
  /-- The file object read from. -/
  object : Nat
  /-- The length measured when the file was opened. -/
  length : Nat
  version : Option (UInt8 × UInt8)
  writeProtected : Bool
  /-- None until it is needed. -/
  index : Option Index
  player : Player
  selection : Selection

namespace Inserted

/-- The tape as its file is now. -/
def tape (i : Inserted) (s : Store) : Tape :=
  ⟨i.format, ⟨s.contents i.object, i.length⟩, i.version⟩

/-- Opens a file; a path that leads nowhere is a fault of its own. -/
def openTape (s : Store) (path : String) (format : Format) (settings : Settings) :
    Except Fault Inserted :=
  match s.resolve path with
  | .error .notFound => .error (.noFile path)
  | .error fault => .error (.file fault)
  | .ok object =>
    match Tape.ofImage format (.ofBytes (s.contents object)) with
    | .error fault => .error (.ofRead fault)
    | .ok t => .ok {
        path, format, object
        length := t.length
        version := t.version
        writeProtected := object ∈ s.locked
        index := none
        player := .new settings t.start
        selection := .empty }

/-- The tape with its index, which is made if it is not there. -/
def indexed (i : Inserted) (s : Store) : Except Fault (Inserted × Index) :=
  match i.index with
  | some x => .ok (i, x)
  | none => do
    let x ← Index.ofTape (i.tape s)
    return ({ i with index := some x }, x)

end Inserted

structure Deck where
  settings : Settings
  tape : Option Inserted
  recorder : Recorder
  /-- The blocks recorded and not yet taken or saved. -/
  recordings : List Bytes

namespace Deck

/-- An empty deck. -/
def new (settings : Settings) : Deck where
  settings := settings
  tape := none
  recorder := .new settings.timings settings.ticksPerSecond
  recordings := []

/-! ### Inserting -/

def eject (d : Deck) : Deck := { d with tape := none }

/-- Opens and indexes a tape that has room for a block. -/
def openIndexed (s : Store) (path : String) (format : Format) (settings : Settings) :
    Except Fault Inserted := do
  let i ← Inserted.openTape s path format settings
  if (i.tape s).isEmpty then .error .cutShort
  else return (← i.indexed s).1

/-- Inserts a tape of a known format; if that fails the deck is empty. -/
def insertKnown (d : Deck) (s : Store) (path : String) (format : Format) :
    Deck × Except Fault Unit :=
  match openIndexed s path format d.settings with
  | .error fault => (d.eject, .error fault)
  | .ok i => ({ d with tape := some i }, .ok ())

/-- Inserts a tape of the format that its name suggests. -/
def insert (d : Deck) (s : Store) (path : String) : Deck × Except Fault Unit :=
  match Format.ofPath? path with
  | none => (d, .error (.wrongFormat path))
  | some format => d.insertKnown s path format

def hasTape (d : Deck) : Bool := d.tape.isSome

/-- Changes the player of the inserted tape. -/
def onPlayer (d : Deck) (f : Player → Player) : Deck :=
  { d with tape := d.tape.map fun i => { i with player := f i.player } }

/-- Does something with the inserted tape and its index. -/
def onTape {α : Type} (d : Deck) (s : Store)
    (f : Inserted → Index → Inserted × Except Fault α) : Deck × Except Fault α :=
  match d.tape with
  | none => (d, .error .deckEmpty)
  | some i =>
    match i.indexed s with
    | .error fault => (d, .error fault)
    | .ok (i, x) =>
      let (i, result) := f i x
      ({ d with tape := some i }, result)

def countBlocks (d : Deck) (s : Store) : Deck × Except Fault Nat :=
  d.onTape s fun i x => (i, .ok x.count)

/-! ### Playing -/

def play (d : Deck) : Deck × Except Fault Unit :=
  match d.tape with
  | none => (d, .error .deckEmpty)
  | some _ => (d.onPlayer .play, .ok ())

def stop (d : Deck) : Deck := d.onPlayer .stop

def rewind (d : Deck) : Deck := d.onPlayer .rewind

def isPlaying (d : Deck) : Bool := d.tape.any (·.player.playing)

/-- The tape has run off its end and was rewound. -/
def hasRunOut (d : Deck) : Bool := d.tape.any (·.player.ranOut)

/-- Stops and moves the cursor to a block. -/
def seek (d : Deck) (s : Store) (ordinal : Nat) : Deck × Except Fault Unit :=
  d.onTape s fun i x =>
    match x.locate (i.tape s) ordinal with
    | .error fault => (i, .error fault)
    | .ok offset => ({ i with player := i.player.seek ordinal offset }, .ok ())

/-- The block under the cursor. -/
def cursor (d : Deck) : Nat := (d.tape.map (·.player.ordinal)).getD 0

/-- Lets ticks pass if the tape plays; gives the ticks played. None if the edges it may
apply were not enough. -/
def advance (d : Deck) (s : Store) (fuel ticks : Nat) : Option (Deck × Except Fault Nat) :=
  match d.tape with
  | none => some (d, .ok 0)
  | some i =>
    if i.player.playing then
      match i.indexed s with
      | .error fault => some (d, .error fault)
      | .ok (i, x) =>
        (i.player.advance (i.tape s) x fuel ticks).map fun (player, played) =>
          ({ d with tape := some { i with player } }, played)
    else some (d, .ok 0)

/-- The ticks until the level can next change. -/
def remaining (d : Deck) : Nat := (d.tape.map (·.player.remaining)).getD 0

/-- The level of the tape. -/
def level (d : Deck) : Bool := d.tape.any (·.player.level)

/-- The level that the machine hears, given that of a real cassette if one is connected. -/
def heard (d : Deck) (cassette : Option Bool) : Bool :=
  let hearsCassette :=
    match d.settings.lineMode with
    | .forceLoad => true
    | .auto => !d.hasTape
    | .forceSave => false
  if hearsCassette then cassette.getD false else d.level

/-- The byte position of the cursor and the length of the tape. -/
def progress (d : Deck) : Option (Nat × Nat) := d.tape.map fun i => (i.player.position, i.length)

/-! ### Recording -/

/-- The recorder hears the line. -/
def isRecording (d : Deck) : Bool :=
  match d.settings.lineMode with
  | .forceSave => true
  | .auto => !d.isPlaying
  | .forceLoad => false

/-- Lets the recorder do something, and keeps the block it ends. -/
def listen (d : Deck) (f : Recorder → Option Bytes × Recorder) : Deck :=
  match d with
  | ⟨settings, tape, recorder, recordings⟩ =>
    let (block, recorder) := f recorder
    ⟨settings, tape, recorder, recordings ++ block.toList⟩

/-- The level that the machine sends at a tick. -/
def send (d : Deck) (level : Bool) (tick : Nat) : Deck :=
  if d.isRecording then d.listen (·.edge level tick) else d

/-- Ends a block if the line has been quiet for too long. -/
def quiet (d : Deck) (tick : Nat) : Deck := d.listen (·.quiet tick)

/-- The blocks recorded since they were last taken. -/
def takeRecordings (d : Deck) : Deck × List Bytes :=
  let d := d.listen Recorder.finish
  ({ d with recordings := [] }, d.recordings)

/-! ### Browsing -/

def summary (d : Deck) (s : Store) (ordinal : Nat) : Deck × Except Fault Summary :=
  d.onTape s fun i x => (i, do
    let b ← x.find (i.tape s) ordinal
    Summary.ofBlock (i.tape s) ordinal b)

/-- Every block in one line, read in one pass. -/
def listing (d : Deck) (s : Store) : Deck × Except Fault (List Summary) :=
  d.onTape s fun i _ => (i,
    let t := i.tape s
    let scan := t.scan
    match scan.fault with
    | some fault => .error (.ofRead fault)
    | none => scan.blocks.toList.zipIdx.mapM fun (b, ordinal) => Summary.ofBlock t ordinal b)

/-- Marks a block or unmarks it; tells whether it is now marked. -/
def toggle (d : Deck) (s : Store) (ordinal : Nat) : Deck × Except Fault Bool :=
  d.onTape s fun i x =>
    if x.count ≤ ordinal then (i, .error (.noSuchBlock ordinal x.count))
    else
      let selection := i.selection.toggle ordinal
      ({ i with selection }, .ok (decide (ordinal ∈ selection)))

/-! ### Editing -/

/-- Does something to the file of a tape that may be written, after stopping it. -/
def edit {α : Type} (d : Deck) (s : Store)
    (f : Inserted → Index → Store × Inserted × Except Fault α) : Store × Deck × Except Fault α :=
  match d.tape with
  | none => (s, d, .error .deckEmpty)
  | some i =>
    if i.writeProtected then (s, d, .error .writeProtected)
    else
      let i := { i with player := i.player.stop }
      match i.indexed s with
      | .error fault => (s, { d with tape := some i }, .error fault)
      | .ok (i, x) =>
        let (s, i, result) := f i x
        (s, { d with tape := some i }, result)

/-- Gives the header of a block a new name. -/
def rename (d : Deck) (s : Store) (ordinal : Nat) (name : String) :
    Store × Deck × Except Fault Renaming :=
  d.edit s fun i x =>
    match (i.tape s).rename x ordinal name with
    | .error fault => (s, i, .error fault)
    | .ok (t, came) =>
      (s.overwrite i.object t.image.bytes, { i with selection := .empty }, .ok came)

/-- Opens the file again and forgets index, cursor and selection. -/
def refresh (settings : Settings) (s : Store) (i : Inserted) : Inserted × Except Fault Unit :=
  match Inserted.openTape s i.path i.format settings with
  | .error fault => (i, .error fault)
  | .ok new => (new, .ok ())

/-- Puts the blocks in order into a new file in place of the old one. -/
def rearrange (settings : Settings) (s : Store) (i : Inserted) (x : Index)
    (order : Except Fault (List Nat)) : Store × Inserted × Except Fault Unit :=
  match order with
  | .error fault => (s, i, .error fault)
  | .ok order =>
    match s.draft i.path with
    | .error fault => (s, i, .error (.file fault))
    | .ok _ =>
      let copy := (i.tape s).splice x order
      match copy.result with
      | .error fault => (s, i, .error fault)
      | .ok () =>
        match s.replace i.path copy.out with
        | .error fault => (s, i, .error (.file fault))
        | .ok s => (s, refresh settings s i)

/-- Moves the selected blocks together in front of block `before`. -/
def moveSelection (d : Deck) (s : Store) (before : Nat) : Store × Deck × Except Fault Unit :=
  d.edit s fun i x => rearrange d.settings s i x (Order.move x.count i.selection before)

/-- Removes the selected blocks, or the block under the cursor if none is selected;
gives their number. -/
def removeSelection (d : Deck) (s : Store) : Store × Deck × Except Fault Nat :=
  d.edit s fun i x =>
    let chosen := if i.selection.isEmpty then .ofList [i.player.ordinal] else i.selection
    let (s, i, result) := rearrange d.settings s i x (Order.remove x.count chosen)
    (s, i, result.map fun _ => chosen.size)

/-! ### Saving -/

/-- Adds the recorded blocks to the file of the inserted tape; gives their number. A
block that has no frame ends the writing, and all blocks stay recorded. -/
def saveRecordings (d : Deck) (s : Store) : Store × Deck × Except Fault Nat :=
  let d := d.listen Recorder.finish
  if d.recordings.isEmpty then (s, d, .ok 0)
  else
    match d.tape with
    | none => (s, d, .error .deckEmpty)
    | some i =>
      if i.writeProtected then (s, d, .error .writeProtected)
      else if i.format ≠ .tap then (s, d, .error (.wrongFormat i.path))
      else
        let i := { i with player := i.player.stop }
        let d := { d with tape := some i }
        let (written, result) := Tap.frames d.recordings
        match s.append i.path written with
        | .error fault => (s, d, .error (.file fault))
        | .ok s =>
          match result with
          | .error fault => (s, d, .error (.file fault))
          | .ok () =>
            let (i, reopened) := refresh d.settings s i
            (s, { d with tape := some i, recordings := [] },
              reopened.map fun _ => d.recordings.length)

end Deck

end Cassette
