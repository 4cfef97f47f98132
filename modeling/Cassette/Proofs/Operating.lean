import Cassette.Proofs.Holding

/-! The states that decks and files come to. `Deck.Op` lists what can be done with a deck, and
`Reachable` follows any number of these operations, in any order, from an empty deck and any
files, which nobody else changes. What an operation has to leave alone for something to be known
of the tape in the deck afterwards is said once, for whatever that is (`Knows`). Main statements:
`Reachable.sound`, the tape in a deck is held by its file in each of these states, and
`Sound.saved`, what a save may then come to. -/

namespace Cassette

/-! ### Orders -/

namespace Order

variable {count before : Nat} {selection : Selection} {order : List Nat}

theorem check_eq_ok_iff :
    check count selection = .ok () ↔ selection.isEmpty = false ∧ ∀ k ∈ selection, k < count := by
  rw [check]
  cases empty : selection.isEmpty with
  | true => simp
  | false =>
    rw [if_neg Bool.false_ne_true]
    cases found : selection.ordinals.find? (count ≤ ·) with
    | some k =>
      have behind : count ≤ k := by simpa using List.find?_some found
      have member : k ∈ selection := List.mem_of_find?_eq_some found
      refine ⟨nofun, fun inside => ?_⟩
      exact absurd (inside.2 k member) (Nat.not_lt.2 behind)
    | none =>
      refine ⟨fun _ => ⟨rfl, fun k member => ?_⟩, fun _ => rfl⟩
      have := List.find?_eq_none.1 found k member
      simpa using this

theorem mem_unselected {k : Nat} : k ∈ unselected count selection ↔ k < count ∧ k ∉ selection := by
  simp [unselected]

theorem move_inside (ordered : move count selection before = .ok order) :
    ∀ k ∈ order, k < count := by
  rw [move] at ordered
  split at ordered
  · exact nomatch ordered
  · next checked =>
    split at ordered
    · exact nomatch ordered
    · obtain rfl := Except.ok.inj ordered
      intro k member
      simp only [List.mem_append, List.mem_filter, mem_unselected] at member
      rcases member with (⟨there, -⟩ | member) | ⟨there, -⟩
      · exact there.1
      · exact (check_eq_ok_iff.1 checked).2 k member
      · exact there.1

theorem remove_inside (ordered : remove count selection = .ok order) : ∀ k ∈ order, k < count := by
  rw [remove] at ordered
  split at ordered
  · exact nomatch ordered
  · obtain rfl := Except.ok.inj ordered
    exact fun k member => (mem_unselected.1 member).1

end Order

namespace Deck

/-! ### Operations -/

/-- What can be done with a deck. -/
inductive Op
  | eject
  | insert (path : String)
  | insertKnown (path : String) (format : Format)
  | play
  | stop
  | rewind
  | seek (ordinal : Nat)
  /-- Lets ticks pass with at most so many edges. -/
  | advance (edges ticks : Nat)
  | send (level : Bool) (tick : Nat)
  | quiet (tick : Nat)
  | takeRecordings
  | countBlocks
  | summary (ordinal : Nat)
  | listing
  | toggle (ordinal : Nat)
  | rename (ordinal : Nat) (name : String)
  | moveSelection (before : Nat)
  | removeSelection
  | saveRecordings

/-- What becomes of the files and the deck; none if there are more edges than were allowed. -/
def Op.run (s : Store) (d : Deck) : Op → Option (Store × Deck)
  | .eject => some (s, d.eject)
  | .insert path => some (s, (d.insert s path).1)
  | .insertKnown path format => some (s, (d.insertKnown s path format).1)
  | .play => some (s, d.play.1)
  | .stop => some (s, d.stop)
  | .rewind => some (s, d.rewind)
  | .seek ordinal => some (s, (d.seek s ordinal).1)
  | .advance edges ticks => (d.advance s edges ticks).map fun (d, _) => (s, d)
  | .send level tick => some (s, d.send level tick)
  | .quiet tick => some (s, d.quiet tick)
  | .takeRecordings => some (s, d.takeRecordings.1)
  | .countBlocks => some (s, (d.countBlocks s).1)
  | .summary ordinal => some (s, (d.summary s ordinal).1)
  | .listing => some (s, (d.listing s).1)
  | .toggle ordinal => some (s, (d.toggle s ordinal).1)
  | .rename ordinal name => some ((d.rename s ordinal name).1, (d.rename s ordinal name).2.1)
  | .moveSelection before => some ((d.moveSelection s before).1, (d.moveSelection s before).2.1)
  | .removeSelection => some ((d.removeSelection s).1, (d.removeSelection s).2.1)
  | .saveRecordings => some ((d.saveRecordings s).1, (d.saveRecordings s).2.1)

/-- The files and decks that operations lead to. -/
inductive Reachable : Store → Deck → Prop
  | new (s : Store) (settings : Settings) : Reachable s (.new settings)
  | next {s s' : Store} {d d' : Deck} (op : Op) (h : Reachable s d)
      (ran : op.run s d = some (s', d')) : Reachable s' d'

/-- The tape in the deck, if there is one, is held by its file. -/
def Sound (s : Store) (d : Deck) : Prop := ∀ i, d.tape = some i → ∃ x, i.Holds s x

/-- Of the tape in the deck, if there is one, and its index something is known. -/
def Knows (P : Inserted → Index → Prop) (d : Deck) : Prop := ∀ i, d.tape = some i → ∃ x, P i x

variable {s : Store} {d : Deck} {i : Inserted} {x : Index} {path : String} {format : Format}
  {settings : Settings} {P : Inserted → Index → Prop}

theorem Knows.of_tape {d' : Deck} (knows : d.Knows P) (same : d'.tape = d.tape) : d'.Knows P := by
  intro i inserted
  exact knows i (same ▸ inserted)

theorem knows_of_tape (inserted : d.tape = some i) (known : P i x) : d.Knows P := by
  intro i' there
  obtain rfl := Option.some.inj (inserted.symm.trans there)
  exact ⟨x, known⟩

/-! ### Inserting -/

/-- A tape that was inserted is opened and indexed, and no emptier than a tape may be. -/
theorem openIndexed_holds (opened : openIndexed s path format settings = .ok i) :
    ∃ x raw, Inserted.openTape s path format settings = .ok raw ∧
      i = { raw with index := some x } ∧ i.Holds s x ∧ i.tape s = i.file s ∧
      (i.tape s).isEmpty = false := by
  obtain ⟨raw, found, made⟩ := bind_eq_ok_iff.1 opened
  cases empty : (raw.tape s).isEmpty with
  | true =>
    rw [if_pos empty] at made
    exact nomatch made
  | false =>
    rw [if_neg (Bool.eq_false_iff.1 empty)] at made
    obtain ⟨-, -, -, length, same, -, none, -⟩ := Inserted.tape_opened found
    obtain ⟨⟨i', x⟩, indexed, made⟩ := bind_eq_ok_iff.1 made
    obtain rfl : i' = i := Except.ok.inj made
    simp only [Inserted.indexed, none] at indexed
    obtain ⟨y, index, made⟩ := bind_eq_ok_iff.1 indexed
    obtain ⟨rfl, rfl⟩ := Prod.mk.inj (Except.ok.inj made)
    have there : raw.object < s.objects.size := by
      apply Store.lt_size_of_contents
      intro nothing
      have zero : (raw.tape s).length = 0 := by
        show raw.length = 0
        rw [length, nothing]
        rfl
      simp [Tape.isEmpty, zero] at empty
    have holds := Inserted.holds_opened found there index
    refine ⟨y, raw, found, rfl, ?_, same, empty⟩
    exact holds.kept raw.player raw.selection fun z cached => (Option.some.inj cached).symm

theorem insert_eq {raw : Inserted} (known : Format.ofPath? path = some format)
    (opened : Inserted.openTape s path format d.settings = .ok raw)
    (some : (raw.tape s).isEmpty = false) (indexed : raw.indexed s = .ok (i, x)) :
    d.insert s path = ({ d with tape := .some i }, .ok ()) := by
  have made : openIndexed s path format d.settings = .ok i := by
    rw [openIndexed, opened]
    simp only [bind, Except.bind, some, Bool.false_eq_true, ↓reduceIte, indexed]
    rfl
  rw [Deck.insert, known]
  simp only [insertKnown, made]

def twoBlocks : Store := ⟨"/", [], [(["a.tap".toList], 0)], #[#[1, 0, 0xA1, 1, 0, 0xB2]], []⟩

def twoBlocksTape : Inserted :=
  ⟨"a.tap", .tap, 0, 6, none, false, some ⟨#[0], 2⟩, .new .standard 0, .empty⟩

theorem insert_twoBlocks : (Deck.new .standard).insert twoBlocks "a.tap" =
    ({ Deck.new .standard with tape := some twoBlocksTape }, .ok ()) := by
  have index : Index.ofTape (twoBlocksTape.tape twoBlocks) = .ok ⟨#[0], 2⟩ := by decide +kernel
  have indexed : Inserted.indexed { twoBlocksTape with index := none } twoBlocks =
      .ok (twoBlocksTape, ⟨#[0], 2⟩) := by
    simp only [Inserted.indexed, show Inserted.tape { twoBlocksTape with index := none } twoBlocks =
      twoBlocksTape.tape twoBlocks from rfl, index]
    rfl
  exact insert_eq (show Format.ofPath? "a.tap" = some .tap by decide) rfl rfl indexed

theorem reachable_twoBlocks :
    Reachable twoBlocks { new .standard with tape := some twoBlocksTape } := by
  refine .next (.insert "a.tap") (.new twoBlocks .standard) ?_
  rw [Op.run, insert_twoBlocks]

theorem draft_twoBlocks : twoBlocks.draft "a.tap" = .ok "/./.tape-tool" := by decide +kernel

theorem holds_inserted (inserted : d.insert s path = ({ d with tape := some i }, .ok ())) :
    ∃ x, i.Holds s x ∧ i.index = some x ∧ i.path = path ∧ i.selection = .empty ∧
      i.player = .new d.settings (i.tape s).start := by
  rw [Deck.insert] at inserted
  split at inserted
  · exact nomatch (Prod.mk.inj inserted).2
  · next format known =>
    rw [insertKnown] at inserted
    split at inserted
    · exact nomatch (Prod.mk.inj inserted).2
    · next i' opened =>
      obtain rfl : i' = i := Option.some.inj (congrArg Deck.tape (Prod.mk.inj inserted).1)
      obtain ⟨x, raw, found, made, holds, -⟩ := openIndexed_holds opened
      obtain ⟨-, named, -, -, -, -, -, player, selection, -⟩ := Inserted.tape_opened found
      subst made
      exact ⟨x, holds, rfl, named, selection, player⟩

theorem insertKnown_knows
    (opens : ∀ i, openIndexed s path format d.settings = .ok i → ∃ x, P i x) :
    (d.insertKnown s path format).1.Knows P := by
  rw [insertKnown]
  split
  · intro i none
    exact nomatch none
  · next i opened =>
    obtain ⟨x, known⟩ := opens i opened
    exact knows_of_tape rfl known

/-- A name of no known format leaves the old tape in the deck. -/
theorem Knows.insert (knows : d.Knows P)
    (known : ∀ format, (d.insertKnown s path format).1.Knows P) :
    (d.insert s path).1.Knows P := by
  rw [Deck.insert]
  split
  · exact knows
  · exact known _

theorem insertKnown_sound (d : Deck) (s : Store) (path : String) (format : Format) :
    (d.insertKnown s path format).1.Sound s := by
  apply insertKnown_knows
  intro i opened
  obtain ⟨x, -, -, -, holds, -⟩ := openIndexed_holds opened
  exact ⟨x, holds⟩

theorem Sound.insert (sound : d.Sound s) (path : String) : (d.insert s path).1.Sound s :=
  Knows.insert sound (insertKnown_sound d s path)

/-! ### Playing and browsing -/

theorem Knows.onPlayer (knows : d.Knows P) {f : Player → Player}
    (keeps : ∀ i x, P i x → P { i with player := f i.player } x) : (d.onPlayer f).Knows P := by
  intro i' inserted
  obtain ⟨i, there, rfl⟩ := Option.map_eq_some_iff.1 inserted
  obtain ⟨x, known⟩ := knows i there
  exact ⟨x, keeps i x known⟩

theorem onTape_eq {α : Type} (inserted : d.tape = some i) (holds : i.Holds s x)
    (f : Inserted → Index → Inserted × Except Fault α) :
    let r := f { i with index := some x } x
    d.onTape s f = ({ d with tape := some r.1 }, r.2) := by
  simp only [Deck.onTape, inserted, holds.indexed_eq]

theorem Knows.onTape {α : Type} {f : Inserted → Index → Inserted × Except Fault α}
    (held : ∀ i x, P i x → i.Holds s x) (knows : d.Knows P)
    (keeps : ∀ i x, P i x → P (f { i with index := some x } x).1 x) :
    (d.onTape s f).1.Knows P := by
  cases inserted : d.tape with
  | none =>
    rw [Deck.onTape, inserted]
    exact knows
  | some i =>
    obtain ⟨x, known⟩ := knows i inserted
    rw [onTape_eq inserted (held i x known) f]
    exact knows_of_tape rfl (keeps i x known)

theorem Knows.advance {d' : Deck} {edges ticks : Nat} {r : Except Fault Nat}
    (held : ∀ i x, P i x → i.Holds s x) (knows : d.Knows P)
    (keeps : ∀ i x, P i x → ∀ player played,
      i.player.advance (i.tape s) x edges ticks = some (player, played) →
      P { i with index := some x, player } x)
    (advanced : d.advance s edges ticks = some (d', r)) : d'.Knows P := by
  rw [Deck.advance] at advanced
  cases inserted : d.tape with
  | none =>
    rw [inserted] at advanced
    obtain ⟨rfl, -⟩ := Prod.mk.inj (Option.some.inj advanced)
    exact knows
  | some i =>
    obtain ⟨x, known⟩ := knows i inserted
    simp only [inserted, (held i x known).indexed_eq] at advanced
    split at advanced
    · obtain ⟨⟨player, played⟩, moved, made⟩ := Option.map_eq_some_iff.1 advanced
      obtain ⟨rfl, -⟩ := Prod.mk.inj made
      exact knows_of_tape rfl (keeps i x known player played moved)
    · obtain ⟨rfl, -⟩ := Prod.mk.inj (Option.some.inj advanced)
      exact knows

theorem Sound.onPlayer (sound : d.Sound s) (f : Player → Player) : (d.onPlayer f).Sound s :=
  Knows.onPlayer sound fun i _ holds => holds.kept (f i.player) i.selection holds.cached

/-- What is done with a tape leaves its file alone, whatever becomes of player and selection. -/
theorem Sound.onTape {α : Type} {f : Inserted → Index → Inserted × Except Fault α}
    (sound : d.Sound s)
    (keeps : ∀ i x, ∃ player selection, (f i x).1 = { i with player, selection }) :
    (d.onTape s f).1.Sound s := by
  refine Knows.onTape (fun _ _ holds => holds) sound fun i x holds => ?_
  obtain ⟨player, selection, kept⟩ := keeps { i with index := some x } x
  rw [kept]
  exact holds.kept player selection fun z cached => (Option.some.inj cached).symm

theorem Sound.advance {d' : Deck} {edges ticks : Nat} {r : Except Fault Nat} (sound : d.Sound s)
    (advanced : d.advance s edges ticks = some (d', r)) : d'.Sound s := by
  refine Knows.advance (fun _ _ holds => holds) sound (fun i x holds player _ _ => ?_) advanced
  exact holds.kept player i.selection fun z cached => (Option.some.inj cached).symm

theorem listen_tape (d : Deck) (f : Recorder → Option Bytes × Recorder) :
    (d.listen f).tape = d.tape := rfl

/-! ### Editing -/

theorem stopped_holds (holds : i.Holds s x) :
    Inserted.Holds s { i with player := i.player.stop, index := some x } x :=
  holds.kept i.player.stop i.selection fun _ cached => (Option.some.inj cached).symm

theorem edit_eq {α : Type} (inserted : d.tape = some i) (free : i.writeProtected = false)
    (holds : i.Holds s x) (f : Inserted → Index → Store × Inserted × Except Fault α) :
    let r := f { i with player := i.player.stop, index := some x } x
    d.edit s f = (r.1, { d with tape := some r.2.1 }, r.2.2) := by
  have stopped := (holds.kept i.player.stop i.selection holds.cached).indexed_eq
  have writable : ¬ i.writeProtected := Bool.eq_false_iff.1 free
  simp only [edit, inserted, if_neg writable, stopped]

/-- An edit keeps what is known if it does so for a tape that may be written, once it is stopped. -/
theorem Knows.edit {α : Type} {f : Inserted → Index → Store × Inserted × Except Fault α}
    {P : Store → Inserted → Index → Prop} (held : ∀ i x, P s i x → i.Holds s x)
    (knows : d.Knows (P s))
    (keeps : ∀ i x, P s i x →
      let r := f { i with player := i.player.stop, index := some x } x
      ∃ y, P r.1 r.2.1 y) :
    (d.edit s f).2.1.Knows (P (d.edit s f).1) := by
  cases inserted : d.tape with
  | none =>
    rw [Deck.edit, inserted]
    exact knows
  | some i =>
    obtain ⟨x, known⟩ := knows i inserted
    cases locked : i.writeProtected with
    | true =>
      simp only [Deck.edit, inserted, locked]
      exact knows
    | false =>
      rw [edit_eq inserted locked (held i x known) f]
      obtain ⟨y, kept⟩ := keeps i x known
      exact knows_of_tape rfl kept

theorem Sound.edit {α : Type} {f : Inserted → Index → Store × Inserted × Except Fault α}
    (sound : d.Sound s)
    (keeps : ∀ i x, i.Holds s x → ∃ y, (f i x).2.1.Holds (f i x).1 y) :
    (d.edit s f).2.1.Sound (d.edit s f).1 :=
  Knows.edit (P := Inserted.Holds) (fun _ _ holds => holds) sound fun _ x holds =>
    keeps _ x (stopped_holds holds)

theorem rearrange_cases (h : i.Holds s x) (settings : Settings)
    {order : Except Fault (List Nat)} (inside : ∀ o, order = .ok o → ∀ k ∈ o, k < x.count) :
    (∃ fault, rearrange settings s i x order = (s, i, .error fault)) ∨
      ∃ o s' i' y, order = .ok o ∧ rearrange settings s i x order = (s', i', .ok ()) ∧
        Inserted.Rearranged settings s i o s' i' y := by
  cases order with
  | error fault => exact .inl ⟨fault, rfl⟩
  | ok order =>
    cases room : s.draft i.path with
    | error fault =>
      refine .inl ⟨.file fault, ?_⟩
      unfold rearrange
      simp only [room]
    | ok draft =>
      obtain ⟨s', i', y, done, rearranged⟩ := h.rearranged (inside order rfl) room settings
      exact .inr ⟨order, s', i', y, rfl, done, rearranged⟩

theorem rearrange_holds (h : i.Holds s x) (settings : Settings)
    {order : Except Fault (List Nat)} (inside : ∀ o, order = .ok o → ∀ k ∈ o, k < x.count) :
    ∃ y, (rearrange settings s i x order).2.1.Holds (rearrange settings s i x order).1 y := by
  obtain ⟨fault, done⟩ | ⟨o, s', i', y, -, done, rearranged⟩ := rearrange_cases h settings inside
  · rw [done]
    exact ⟨x, h⟩
  · rw [done]
    exact ⟨y, rearranged.holds⟩

theorem Sound.rename (sound : d.Sound s) (ordinal : Nat) (name : String) :
    (d.rename s ordinal name).2.1.Sound (d.rename s ordinal name).1 := by
  apply sound.edit
  intro i x holds
  refine ⟨x, ?_⟩
  cases renamed : (i.tape s).rename x ordinal name with
  | error fault => exact holds
  | ok r =>
    obtain ⟨t, came⟩ := r
    exact (holds.renamed renamed).kept i.player .empty holds.cached

theorem Sound.moveSelection (sound : d.Sound s) (before : Nat) :
    (d.moveSelection s before).2.1.Sound (d.moveSelection s before).1 := by
  apply sound.edit
  intro i x holds
  exact rearrange_holds holds d.settings fun order ordered => Order.move_inside ordered

theorem Sound.removeSelection (sound : d.Sound s) :
    (d.removeSelection s).2.1.Sound (d.removeSelection s).1 := by
  apply sound.edit
  intro i x holds
  exact rearrange_holds holds d.settings fun order ordered => Order.remove_inside ordered

/-! ### Saving -/

/-- The blocks to be saved: those recorded, and the one that is ended for it. -/
def queue (d : Deck) : List Bytes := (d.listen Recorder.finish).recordings

/-- Why no blocks can be added to the tape in the deck, if it is so. -/
def refusal (d : Deck) : Option Fault :=
  match d.tape with
  | none => some .deckEmpty
  | some i =>
    if i.writeProtected then some .writeProtected
    else if i.format ≠ .tap then some (.wrongFormat i.path)
    else none

/-- What a save may come to. -/
inductive Saved (s : Store) (d : Deck) : Store × Deck × Except Fault Nat → Prop
  | nothing (none : d.queue = []) : Saved s d (s, d.listen Recorder.finish, .ok 0)
  | refused {fault : Fault} (refused : d.refusal = some fault) :
    Saved s d (s, d.listen Recorder.finish, .error fault)
  | done {i i' : Inserted} {y y' : Index} {written : Bytes} (inserted : d.tape = some i)
      (framed : Tap.frames d.queue = (written, .ok ()))
      (appended : Inserted.Appended d.settings s i d.queue
        (s.overwrite i.object (s.contents i.object ++ written)) i' y y') :
    Saved s d (s.overwrite i.object (s.contents i.object ++ written),
      { d.listen Recorder.finish with tape := some i', recordings := [] }, .ok d.queue.length)
  /-- The blocks in front of one that has no frame are in the file, though all stay recorded. -/
  | half {i : Inserted} {written : Bytes} {fault : FileFault} (inserted : d.tape = some i)
      (tap : i.format = .tap) (failed : Tap.frames d.queue = (written, .error fault)) :
    Saved s d (s.overwrite i.object (s.contents i.object ++ written),
      { d.listen Recorder.finish with tape := some { i with player := i.player.stop } },
      .error (.file fault))

theorem accepted_tap (inserted : d.tape = some i) (accepted : d.refusal = none) :
    ¬ i.writeProtected ∧ i.format = .tap := by
  simp only [refusal, inserted] at accepted
  by_cases locked : i.writeProtected
  · rw [if_pos locked] at accepted
    exact nomatch accepted
  · rw [if_neg locked] at accepted
    by_cases other : i.format ≠ .tap
    · rw [if_pos other] at accepted
      exact nomatch accepted
    · exact ⟨locked, not_not.1 other⟩

section Saved

variable {written : Bytes} (some : d.queue ≠ [])
include some

theorem recordings_filled : (d.listen Recorder.finish).recordings.isEmpty = false :=
  List.isEmpty_eq_false_iff.2 some

theorem save_refused {fault : Fault} (refused : d.refusal = .some fault) :
    d.saveRecordings s = (s, d.listen Recorder.finish, .error fault) := by
  unfold saveRecordings
  simp only [recordings_filled some, Bool.false_eq_true, ↓reduceIte, listen_tape]
  rw [refusal] at refused
  cases inserted : d.tape with
  | none =>
    rw [inserted] at refused
    obtain rfl := Option.some.inj refused
    rfl
  | some i =>
    simp only [inserted] at refused ⊢
    by_cases locked : i.writeProtected
    · rw [if_pos locked] at refused ⊢
      rw [Option.some.inj refused]
    · rw [if_neg locked] at refused ⊢
      by_cases other : i.format ≠ .tap
      · rw [if_pos other] at refused ⊢
        rw [Option.some.inj refused]
      · rw [if_neg other] at refused
        exact nomatch refused

variable (inserted : d.tape = .some i) (accepted : d.refusal = none) (holds : i.Holds s x)
include inserted accepted holds

/-- Blocks that all have frames are appended, and the tape is opened anew. -/
theorem save_done (framed : Tap.frames d.queue = (written, .ok ())) :
    ∃ i' y y', Inserted.Appended d.settings s i d.queue
        (s.overwrite i.object (s.contents i.object ++ written)) i' y y' ∧
      d.saveRecordings s = (s.overwrite i.object (s.contents i.object ++ written),
        { d.listen Recorder.finish with tape := .some i', recordings := [] },
        .ok d.queue.length) := by
  obtain ⟨free, tap⟩ := accepted_tap inserted accepted
  obtain ⟨i', y, y', appended⟩ := holds.appended tap framed d.settings
  have framed' : Tap.frames (d.listen Recorder.finish).recordings = (written, .ok ()) := framed
  have settings : (d.listen Recorder.finish).settings = d.settings := rfl
  refine ⟨i', y, y', appended, ?_⟩
  unfold saveRecordings refresh
  simp only [recordings_filled some, Bool.false_eq_true, ↓reduceIte, listen_tape, inserted,
    if_neg free, if_neg (not_not.2 tap), framed', holds.append_eq, settings, appended.opened]
  rfl

/-- If a block has no frame, those in front of it are appended all the same. -/
theorem save_half {fault : FileFault} (failed : Tap.frames d.queue = (written, .error fault)) :
    d.saveRecordings s = (s.overwrite i.object (s.contents i.object ++ written),
      { d.listen Recorder.finish with tape := .some { i with player := i.player.stop } },
      .error (.file fault)) := by
  obtain ⟨free, tap⟩ := accepted_tap inserted accepted
  have failed' : Tap.frames (d.listen Recorder.finish).recordings = (written, .error fault) :=
    failed
  unfold saveRecordings
  simp only [recordings_filled some, Bool.false_eq_true, ↓reduceIte, listen_tape, inserted,
    if_neg free, if_neg (not_not.2 tap), failed', holds.append_eq]

end Saved

theorem save_nothing (none : d.queue = []) :
    d.saveRecordings s = (s, d.listen Recorder.finish, .ok 0) := by
  have empty : (d.listen Recorder.finish).recordings.isEmpty = true := List.isEmpty_iff.2 none
  unfold saveRecordings
  simp only [empty, ↓reduceIte]

/-- A save finds nothing to do, is refused, adds every block, or stops at one that has no frame. -/
theorem Sound.saved (sound : d.Sound s) : Saved s d (d.saveRecordings s) := by
  by_cases none : d.queue = []
  · rw [save_nothing none]
    exact .nothing none
  · cases accepted : d.refusal with
    | some fault =>
      rw [save_refused none accepted]
      exact .refused accepted
    | none =>
      cases inserted : d.tape with
      | none =>
        simp only [refusal, inserted] at accepted
        exact nomatch accepted
      | some i =>
        obtain ⟨x, holds⟩ := sound i inserted
        generalize framed : Tap.frames d.queue = framing
        obtain ⟨written, fault | ⟨⟩⟩ := framing
        · rw [save_half none inserted accepted holds framed]
          exact .half inserted (accepted_tap inserted accepted).2 framed
        · obtain ⟨i', y, y', appended, saved⟩ := save_done none inserted accepted holds framed
          rw [saved]
          exact .done inserted framed appended

/-- A save changes the file only by blocks behind the others. -/
theorem Sound.saveRecordings (sound : d.Sound s) :
    (d.saveRecordings s).2.1.Sound (d.saveRecordings s).1 := by
  have unchanged : (d.listen Recorder.finish).Sound s := Knows.of_tape sound (listen_tape d _)
  have saved := sound.saved
  generalize d.saveRecordings s = result at saved ⊢
  cases saved with
  | nothing => exact unchanged
  | refused => exact unchanged
  | done inserted framed appended => exact knows_of_tape rfl appended.holds
  | @half i written fault inserted tap failed =>
    obtain ⟨x, holds⟩ := sound i inserted
    -- Whole frames lie behind the tape, though not those of the whole queue.
    have before := Tap.frames_takeWhile d.queue
    rw [failed] at before
    exact knows_of_tape rfl
      ((holds.grown tap before).kept i.player.stop i.selection holds.cached)

/-! ### Every state -/

theorem Op.sound {s' : Store} {d' : Deck} {op : Op} (sound : d.Sound s)
    (ran : op.run s d = some (s', d')) : d'.Sound s' := by
  cases op
  case advance edges ticks =>
    obtain ⟨⟨d', r⟩, advanced, made⟩ := Option.map_eq_some_iff.1 ran
    obtain ⟨rfl, rfl⟩ := Prod.mk.inj made
    exact sound.advance advanced
  -- Every other operation comes to an end.
  all_goals
    obtain ⟨rfl, rfl⟩ := Prod.mk.inj (Option.some.inj ran)
  case eject => exact fun i none => nomatch none
  case insert path => exact sound.insert path
  case insertKnown path format => exact insertKnown_sound d s path format
  case play =>
    rw [Deck.play]
    split
    · exact sound
    · exact sound.onPlayer .play
  case stop => exact sound.onPlayer .stop
  case rewind => exact sound.onPlayer .rewind
  case seek ordinal =>
    apply sound.onTape
    intro i x
    cases x.locate (i.tape s) ordinal with
    | error fault => exact ⟨i.player, i.selection, rfl⟩
    | ok offset => exact ⟨i.player.seek ordinal offset, i.selection, rfl⟩
  case send level tick =>
    rw [Deck.send]
    split
    · exact Knows.of_tape sound (listen_tape _ _)
    · exact sound
  case quiet tick => exact Knows.of_tape sound (listen_tape _ _)
  case takeRecordings => exact Knows.of_tape sound (listen_tape d Recorder.finish)
  case countBlocks => exact sound.onTape fun i x => ⟨i.player, i.selection, rfl⟩
  case summary ordinal => exact sound.onTape fun i x => ⟨i.player, i.selection, rfl⟩
  case listing => exact sound.onTape fun i x => ⟨i.player, i.selection, rfl⟩
  case toggle ordinal =>
    apply sound.onTape
    intro i x
    by_cases behind : x.count ≤ ordinal
    · exact ⟨i.player, i.selection, by simp only [if_pos behind]⟩
    · exact ⟨i.player, i.selection.toggle ordinal, by simp only [if_neg behind]⟩
  case rename ordinal name => exact sound.rename ordinal name
  case moveSelection before => exact sound.moveSelection before
  case removeSelection => exact sound.removeSelection
  case saveRecordings => exact sound.saveRecordings

/-- Whatever is done with a deck, and in whatever order, the tape in it is held by its file. -/
theorem Reachable.sound (reachable : Reachable s d) : d.Sound s := by
  induction reachable with
  | new s settings => exact fun i none => nomatch none
  | next op _ ran ih => exact Op.sound ih ran

end Deck

end Cassette
