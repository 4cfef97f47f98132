import Cassette.Command
import Cassette.Report
import Cassette.Settings.Reader

/-! Running a command of `tape-tool` on a store of files: the files behind it, the exit
code and what is printed. -/

namespace Cassette

/-- Why a command failed. -/
inductive Failure
  /-- The settings could not be read. -/
  | settings (path : String)
  | insertion (path : String) (fault : Fault)
  | fault (fault : Fault)
  /-- Block numbers count from one. -/
  | blockZero
  /-- The tape plays longer than it was allowed to. -/
  | tooLong (seconds block : Nat)
  deriving DecidableEq, Repr

/-- A fault and what lies under it: the answer of the file system, if it came from there. -/
def Fault.causes : Fault → List String
  | file cause => [(file cause).message, cause.message]
  | cause => [cause.message]

/-- A text whose further lines start `width` columns in, under its first. -/
def hanging (width : Nat) (text : String) : String :=
  String.join (text.toList.map fun c =>
    if c = '\n' then "\n" ++ Text.fill ' ' width else c.toString)

/-- What lies under a failure, below it; several causes are numbered. -/
def causesBelow : List String → String
  | [] => ""
  | [cause] => "\n\nCaused by:\n    " ++ hanging 4 cause
  | causes =>
    "\n\nCaused by:" ++ String.join (causes.zipIdx.map fun (cause, n) =>
      "\n" ++ Text.padLeft 5 (toString n) ++ ": " ++ hanging 7 cause)

/-- The wording of a failure. -/
def Failure.message : Failure → String
  | settings path => "Error: failed to load config " ++ path ++ "\n"
  | insertion path cause =>
    "Error: failed to insert " ++ path ++ causesBelow cause.causes ++ "\n"
  | fault cause => "Error: " ++ cause.message ++ causesBelow cause.causes.tail ++ "\n"
  | blockZero => "Error: block numbers start at 1\n"
  | tooLong seconds block =>
    s!"Error: tape still playing after {seconds} s (block {block + 1})\n"

/-- What running a command came to. -/
structure Outcome where
  store : Store
  exitCode : Nat
  stdout : String
  /-- Nothing is said about the wording of a misuse. -/
  stderr : Option String

/-- A summary as JSON: an object with every field, in a fixed order. -/
def Summary.toJson (s : Summary) : Json.Value :=
  .ofFields [("ordinal", .ofNat s.ordinal), ("kind", .ofString s.kind),
    ("name", .ofOption .ofString s.name), ("length", .ofOption .ofNat s.length)]

namespace Session

/-- A deck and its files. -/
structure State where
  store : Store
  deck : Deck

/-- A part of a command: it may fail, but what it did to the files stays. -/
abbrev Step := ExceptT Failure (StateM State)

/-- A step on the deck alone. -/
def onDeck {α : Type} (f : Deck → Store → Deck × Except Fault α) : Step α :=
  ExceptT.mk fun st =>
    let (deck, result) := f st.deck st.store
    (result.mapError .fault, { st with deck })

/-- A step that edits files. -/
def onFiles {α : Type} (f : Deck → Store → Store × Deck × Except Fault α) : Step α :=
  ExceptT.mk fun st =>
    let (store, deck, result) := f st.deck st.store
    (result.mapError .fault, ⟨store, deck⟩)

def insert (path : String) : Step Unit :=
  ExceptT.mk fun st =>
    let (deck, result) := st.deck.insert st.store path
    (result.mapError (.insertion path), { st with deck })

/-- The block of a number that counts from one. -/
def ordinal (block : Nat) : Except Failure Nat :=
  if block = 0 then .error .blockZero else .ok (block - 1)

/-- Marks a block, or unmarks it. -/
def toggle (block : Nat) : Step Unit := do
  let n ← ordinal block
  discard (onDeck fun d s => d.toggle s n)

/-- Lines of output. -/
def unlines (lines : List String) : String := String.join (lines.map (· ++ "\n"))

def list (path : String) (json : Bool) : Step String := do
  insert path
  let listing ← onDeck Deck.listing
  if json then return (Json.Value.array (listing.map Summary.toJson)).pretty ++ "\n"
  else return unlines (listing.map Summary.line)

def rename (path : String) (block : Nat) (name : String) : Step String := do
  insert path
  let n ← ordinal block
  match ← onFiles fun d s => d.rename s n name with
  | .whole => return s!"Renamed block {block}\n"
  | .cut => return s!"Renamed block {block} (name truncated)\n"

def move (path : String) (before : Nat) (blocks : List Nat) : Step String := do
  insert path
  blocks.forM toggle
  let n ← ordinal before
  onFiles fun d s => d.moveSelection s n
  return ""

def remove (path : String) (blocks : List Nat) : Step String := do
  insert path
  blocks.forM toggle
  let removed ← onFiles Deck.removeSelection
  return s!"Removed {removed} blocks\n"

/-- Inserts a tape and starts it; gives the number of its blocks. -/
def start (path : String) : Step Nat := do
  insert path
  let count ← onDeck Deck.countBlocks
  onDeck fun d _ => d.play
  return count

/-- The lines about a tape that has been played. -/
def account (a : Account) : Step String := do
  let listing ← onDeck Deck.listing
  let st ← get
  return unlines (a.lines listing st.deck.settings.ticksPerSecond)

/-- Plays a tape; none if the steps and edges were not enough. -/
def play (fuel : Nat) (path : String) (seconds : Nat) (st : State) :
    Option (Except Failure String × State) :=
  match (start path).run st with
  | (.error failure, st) => some (.error failure, st)
  | (.ok count, st) =>
    let limit := min (seconds * st.deck.settings.ticksPerSecond) Signal.lastTick
    match Account.playOn st.store (UInt64.ofNat limit) fuel st.deck (.blank count) with
    | none => none
    | some (deck, .error (.fault fault)) => some (.error (.fault fault), { st with deck })
    | some (deck, .error (.tooLong block)) =>
      some (.error (.tooLong seconds block), { st with deck })
    | some (deck, .ok a) => some ((account a).run { st with deck })

/-- Runs a command; only `play` can ask for more than it is given. -/
def perform (fuel : Nat) (command : Command) (st : State) :
    Option (Except Failure String × State) :=
  match command with
  | .list path json => some ((list path json).run st)
  | .rename path block name => some ((rename path block name).run st)
  | .move path before blocks => some ((move path before blocks).run st)
  | .remove path blocks => some ((remove path blocks).run st)
  | .play path seconds => play fuel path seconds st

/-- The settings in a file, which has to be text. -/
def loadSettings (s : Store) (path : String) : Except Failure Settings :=
  let read : Option Settings := do
    let object ← (s.resolve path).toOption
    let text ← String.fromUTF8? ⟨s.contents object⟩
    Settings.parse? text
  match read with
  | some settings => .ok settings
  | none => .error (.settings path)

/-- The settings of an invocation. -/
def settingsOf (s : Store) : Option String → Except Failure Settings
  | none => .ok .standard
  | some path => loadSettings s path

/-- Runs an invocation. -/
def run (fuel : Nat) (invocation : Invocation) (s : Store) : Option Outcome :=
  match settingsOf s invocation.settings with
  | .error failure => some ⟨s, 1, "", some failure.message⟩
  | .ok settings =>
    (perform fuel invocation.command ⟨s, .new settings⟩).map fun (result, st) =>
      match result with
      | .ok printed => ⟨st.store, 0, printed, some ""⟩
      | .error failure => ⟨st.store, 1, "", some failure.message⟩

/-- The name and version of the program. -/
def versionLine : String := "tape-tool 0.1.0\n"

/-- Does what the arguments ask for. -/
def answer (fuel : Nat) (args : List String) (s : Store) : Option Outcome :=
  match Request.ofArguments args with
  | .run invocation => run fuel invocation s
  | .version => some ⟨s, 0, versionLine, some ""⟩
  | .help => some ⟨s, 0, "", some ""⟩
  | .misuse => some ⟨s, 2, "", none⟩

end Session

end Cassette
