import Cassette.Proofs.Choosing
import Cassette.Proofs.Cursor

/-! What a deck remembers of its tape agrees with the file. `Inserted.Agrees` says so of the
length, the index, the selection and the player, and each operation of a deck keeps it: what
moves the cursor keeps it in step with the tape, an edit that makes a new file opens it anew, and
one that writes over a header leaves every block, and so the cursor, where it was
(`Standing.redrawn`). Main statement: `Intact.in_step`, whatever is done with a deck, in any
order, as long as no save fails half-way. -/

namespace Cassette

open Signal Image

/-! ### The cursor on a renamed tape -/

namespace Signal

variable {image image' : Image} {b b' : Block} {phase : Phase}

theorem RunStart.same {data : Tzx.Span} {k : Nat} (start : RunStart image data k)
    (same : Image.Same image data.offset image' data.offset data.length) :
    RunStart image' data k := by
  induction start with
  | first => exact .first
  | short _ more nonzero ih => exact ih.short more (same.byte _ more ▸ nonzero)
  | @long k _ fits zero ih =>
    have byte := same.byte k (by omega)
    exact ih.long fits (byte.trans zero)

/-- What is being played of a block can be played on when a header has been written over. -/
theorem Phase.Within.again (within : phase.Within image b) (again : b.Again image image' b')
    (length : image'.length = image.length)
    (inside : ∀ data, b.payload? = some data → b.offset < data.offset ∧
      data.stop = b.offset + b.size) : phase.Within image' b' := by
  have bits {c : BitCursor} (h : b.payload? = some c.data ∧ c.Inside image) :
      b'.payload? = some c.data ∧ c.Inside image' :=
    ⟨again.payload.trans h.1, length ▸ h.2.fits, h.2.read, h.2.used⟩
  cases phase with
  | pilot _ _ _ _ c | sync2 _ c | data c | samples c => exact bits within
  | runs c =>
    obtain ⟨⟨block, pauseMs, rate, stored, rfl, kind⟩, fits, start⟩ := within
    cases again with
    | relabelled h =>
      -- A block that had a header is of standard speed, and so is no recording.
      have standard := h.standard block rfl
      rw [kind] at standard
      exact nomatch standard
    | kept same =>
      have payload : block.kind.data? = some c.data := by rw [kind]; rfl
      obtain ⟨behind, stop⟩ := inside c.data payload
      simp only [Tzx.Span.stop] at stop
      have part : Image.Same image c.data.offset image' c.data.offset c.data.length :=
        same.part (Nat.le_of_lt behind) (Nat.le_of_eq stop) rfl
      exact ⟨⟨block, pauseMs, rate, stored, rfl, kind⟩, length ▸ fits, start.same part⟩
  | _ => trivial

end Signal

namespace Player

variable {t t' : Tape} {x : Index} {p : Player}

/-- The cursor is in step with a tape whose blocks are where those of its own were. -/
theorem Standing.redrawn (h : Indexed t x) (redrawn : t.Redrawn t') (standing : p.Standing t x) :
    p.Standing t' x where
  start := standing.start.trans redrawn.start.symm
  ordinal_le := standing.ordinal_le
  offset := standing.offset.trans (redrawn.offsetAt _).symm
  behind playing := (standing.behind playing).trans (redrawn.offsetAt _).symm
  within playing := by
    obtain ⟨b, found, within⟩ := standing.within playing
    obtain ⟨b', found', again⟩ := redrawn.again _ b found
    obtain ⟨-, read, -⟩ := h.read_of_found found
    rw [Tape.offsetAt_of_found found] at read
    exact ⟨b', found', within.again again redrawn.length fun data payload =>
      Tape.payload_of_blockAt? h.whole read payload⟩
  loop := standing.loop
  call := standing.call

end Player

/-! ### What is remembered of a tape -/

theorem Selection.not_mem_empty {k : Nat} : k ∉ Selection.empty := List.not_mem_nil

namespace Inserted

variable {s : Store} {i : Inserted} {x : Index} {path : String} {format : Format}
  {settings : Settings}

theorem Holds.indexed_of_length (holds : i.Holds s x)
    (length : i.length = (s.contents i.object).size) : Indexed (i.tape s) x := by
  have whole : (i.tape s).image.Whole := length
  have indexed := holds.indexed
  rwa [Tape.measured, whole.measured] at indexed

theorem Holds.renamed_size (holds : i.Holds s x) (length : i.length = (s.contents i.object).size)
    {ordinal : Nat} {name : String} {t : Tape} {came : Renaming}
    (renamed : (i.tape s).rename x ordinal name = .ok (t, came)) :
    i.length = t.image.bytes.size := by
  obtain ⟨placed, new, inside, written, -⟩ :=
    Tape.rename_indexed holds.covered holds.indexed renamed
  have within : placed.offset + new.size ≤ (s.contents i.object).size := length ▸ inside
  rw [written]
  exact length.trans (size_patch within).symm

/-- What is remembered of a tape agrees with its file: its length is that of the file, only blocks
that are there are marked, and the cursor is in step. -/
structure Agrees (s : Store) (i : Inserted) (x : Index) : Prop where
  holds : i.Holds s x
  length : i.length = (s.contents i.object).size
  selected : ∀ k ∈ i.selection, k < x.count
  standing : i.player.Standing (i.tape s) x

theorem Agrees.tape_eq (agrees : i.Agrees s x) : i.tape s = i.file s := by
  rw [file, tape, agrees.length]
  rfl

theorem Agrees.indexed (agrees : i.Agrees s x) : Indexed (i.tape s) x :=
  agrees.holds.indexed_of_length agrees.length

theorem Agrees.kept (agrees : i.Agrees s x) {player : Player} {selection : Selection}
    {index : Option Index} (standing : player.Standing (i.tape s) x)
    (selected : ∀ k ∈ selection, k < x.count) (cached : ∀ y, index = some y → y = x) :
    Agrees s { i with player, selection, index } x :=
  ⟨agrees.holds.kept player selection cached, agrees.length, selected, standing⟩

theorem Agrees.played (agrees : i.Agrees s x) {player : Player}
    (standing : player.Standing (i.tape s) x) : Agrees s { i with player } x :=
  agrees.kept standing agrees.selected agrees.holds.cached

theorem Agrees.cached (agrees : i.Agrees s x) : Agrees s { i with index := some x } x :=
  agrees.kept agrees.standing agrees.selected fun _ cached => (Option.some.inj cached).symm

theorem agrees_opened (opened : openTape s path format settings = .ok i) (holds : i.Holds s x) :
    i.Agrees s x := by
  obtain ⟨-, -, -, length, -, -, -, player, selection, -⟩ := tape_opened opened
  refine ⟨holds, length, ?_, ?_⟩
  · rw [selection]
    exact fun k member => absurd member Selection.not_mem_empty
  · rw [player]
    exact Player.standing_new (holds.indexed_of_length length) settings

/-- A header that is written over leaves index, cursor and length right. -/
theorem Agrees.renamed (agrees : i.Agrees s x) {ordinal : Nat} {name : String} {t : Tape}
    {came : Renaming} (renamed : (i.tape s).rename x ordinal name = .ok (t, came)) :
    Agrees (s.overwrite i.object t.image.bytes) { i with selection := .empty } x := by
  have whole : (i.tape s).image.Whole := agrees.length
  have holds := agrees.holds
  obtain ⟨placed, new, -, written, -, redrawn⟩ :=
    Tape.rename_indexed holds.covered holds.indexed renamed
  have size := holds.renamed_size agrees.length renamed
  have tape : i.tape (s.overwrite i.object t.image.bytes) = t := by
    rw [tape_overwrite holds.there, written]
    rfl
  have whole' : t.image.Whole := by
    rw [← tape]
    show i.length = ((s.overwrite i.object t.image.bytes).contents i.object).size
    rwa [Store.contents_overwrite holds.there]
  rw [Tape.measured, whole.measured, Tape.measured, whole'.measured] at redrawn
  refine ⟨(holds.renamed renamed).kept i.player .empty holds.cached, ?_,
    fun k member => absurd member Selection.not_mem_empty, ?_⟩
  · rwa [Store.contents_overwrite holds.there]
  · show i.player.Standing (i.tape (s.overwrite i.object t.image.bytes)) x
    rw [tape]
    exact agrees.standing.redrawn agrees.indexed redrawn

end Inserted

namespace Deck

variable {s : Store} {d : Deck} {i : Inserted} {x : Index}

/-- What the deck remembers of its tape, if there is one, agrees with the file. -/
def Agrees (s : Store) (d : Deck) : Prop := d.Knows (Inserted.Agrees s)

theorem Agrees.sound (agrees : d.Agrees s) : d.Sound s := by
  intro i inserted
  obtain ⟨x, agrees⟩ := agrees i inserted
  exact ⟨x, agrees.holds⟩

/-! ### Operations -/

theorem insertKnown_agrees (d : Deck) (s : Store) (path : String) (format : Format) :
    (d.insertKnown s path format).1.Agrees s := by
  apply insertKnown_knows
  intro i opened
  obtain ⟨x, raw, found, rfl, holds, -⟩ := openIndexed_holds opened
  obtain ⟨-, -, -, -, -, -, none, -⟩ := Inserted.tape_opened found
  have bare : raw.Holds s x :=
    holds.kept raw.player raw.selection fun y cached => nomatch none.symm.trans cached
  exact ⟨x, (Inserted.agrees_opened found bare).cached⟩

theorem Agrees.insert (agrees : d.Agrees s) (path : String) : (d.insert s path).1.Agrees s :=
  Knows.insert agrees (insertKnown_agrees d s path)

theorem Agrees.onPlayer (agrees : d.Agrees s) {f : Player → Player}
    (keeps : ∀ t x p, Indexed t x → p.Standing t x → (f p).Standing t x) :
    (d.onPlayer f).Agrees s :=
  Knows.onPlayer agrees fun i x agrees =>
    agrees.played (keeps _ x i.player agrees.indexed agrees.standing)

theorem Agrees.onTape {α : Type} {f : Inserted → Index → Inserted × Except Fault α}
    (agrees : d.Agrees s) (keeps : ∀ i x, i.Agrees s x → (f i x).1.Agrees s x) :
    (d.onTape s f).1.Agrees s :=
  Knows.onTape (fun _ _ agrees => agrees.holds) agrees fun _ x agrees => keeps _ x agrees.cached

theorem Agrees.seek (agrees : d.Agrees s) (ordinal : Nat) : (d.seek s ordinal).1.Agrees s := by
  apply agrees.onTape
  intro i x agrees
  by_cases inside : ordinal < x.count
  · simp only [agrees.indexed.locate_eq inside]
    exact agrees.played (Player.standing_seek agrees.standing.start (Nat.le_of_lt inside))
  · simp only [Index.locate, if_pos (Nat.not_lt.1 inside)]
    exact agrees

theorem Agrees.toggle (agrees : d.Agrees s) (ordinal : Nat) :
    (d.toggle s ordinal).1.Agrees s := by
  apply agrees.onTape
  intro i x agrees
  by_cases behind : x.count ≤ ordinal
  · simp only [if_pos behind]
    exact agrees
  · simp only [if_neg behind]
    refine agrees.kept agrees.standing (fun k member => ?_) agrees.holds.cached
    by_cases same : k = ordinal
    · exact same ▸ Nat.not_le.1 behind
    · exact agrees.selected k ((Selection.mem_toggle.1 member).2 same)

theorem Agrees.advance {d' : Deck} {edges ticks : Nat} {r : Except Fault Nat}
    (agrees : d.Agrees s) (advanced : d.advance s edges ticks = some (d', r)) :
    d'.Agrees s := by
  refine Knows.advance (fun _ _ agrees => agrees.holds) agrees ?_ advanced
  intro i x agrees player played moved
  exact agrees.cached.played (Player.advance_sound agrees.indexed agrees.standing moved).1

/-! ### Edits -/

theorem stopped_agrees (agrees : i.Agrees s x) :
    Inserted.Agrees s { i with player := i.player.stop, index := some x } x :=
  agrees.cached.played (agrees.standing.paused i.player.remaining false)

theorem Agrees.edit {α : Type} {f : Inserted → Index → Store × Inserted × Except Fault α}
    (agrees : d.Agrees s)
    (keeps : ∀ i x, i.Agrees s x → ∃ y, (f i x).2.1.Agrees (f i x).1 y) :
    (d.edit s f).2.1.Agrees (d.edit s f).1 :=
  Knows.edit (P := Inserted.Agrees) (fun _ _ agrees => agrees.holds) agrees fun _ x agrees =>
    keeps _ x (stopped_agrees agrees)

theorem rearrange_agrees (agrees : i.Agrees s x) (settings : Settings)
    {order : Except Fault (List Nat)} (inside : ∀ o, order = .ok o → ∀ k ∈ o, k < x.count) :
    ∃ y, (rearrange settings s i x order).2.1.Agrees (rearrange settings s i x order).1 y := by
  obtain ⟨fault, done⟩ | ⟨o, s', i', y, -, done, rearranged⟩ :=
    rearrange_cases agrees.holds settings inside
  · rw [done]
    exact ⟨x, agrees⟩
  · rw [done]
    exact ⟨y, Inserted.agrees_opened rearranged.opened rearranged.holds⟩

theorem Agrees.rename (agrees : d.Agrees s) (ordinal : Nat) (name : String) :
    (d.rename s ordinal name).2.1.Agrees (d.rename s ordinal name).1 := by
  apply agrees.edit
  intro i x agrees
  refine ⟨x, ?_⟩
  cases renamed : (i.tape s).rename x ordinal name with
  | error fault => exact agrees
  | ok r => exact agrees.renamed renamed

theorem Agrees.moveSelection (agrees : d.Agrees s) (before : Nat) :
    (d.moveSelection s before).2.1.Agrees (d.moveSelection s before).1 := by
  apply agrees.edit
  intro i x agrees
  exact rearrange_agrees agrees d.settings fun order ordered => Order.move_inside ordered

theorem Agrees.removeSelection (agrees : d.Agrees s) :
    (d.removeSelection s).2.1.Agrees (d.removeSelection s).1 := by
  apply agrees.edit
  intro i x agrees
  exact rearrange_agrees agrees d.settings fun order ordered => Order.remove_inside ordered

/-- A save that does not fail half-way opens the longer file anew. -/
theorem Agrees.saveRecordings (agrees : d.Agrees s)
    (fits : ∀ block ∈ d.queue, block.size ≤ Tap.payloadLimit) :
    (d.saveRecordings s).2.1.Agrees (d.saveRecordings s).1 := by
  have unchanged : (d.listen Recorder.finish).Agrees s := Knows.of_tape agrees (listen_tape d _)
  have saved := agrees.sound.saved
  generalize d.saveRecordings s = result at saved ⊢
  cases saved with
  | nothing => exact unchanged
  | refused => exact unchanged
  | done inserted framed appended =>
    exact knows_of_tape rfl (Inserted.agrees_opened appended.opened appended.holds)
  | half inserted tap failed =>
    have all : (Tap.frames d.queue).2 = .ok () := Tap.frames_ok_iff.2 fits
    rw [failed] at all
    exact nomatch all

/-! ### Every state -/

/-- If blocks are saved, each of them has a frame. -/
def Op.Fits (d : Deck) : Op → Prop
  | .saveRecordings => ∀ block ∈ d.queue, block.size ≤ Tap.payloadLimit
  | _ => True

/-- The files and decks that operations lead to if no save fails half-way. -/
inductive Intact : Store → Deck → Prop
  | new (s : Store) (settings : Settings) : Intact s (.new settings)
  | next {s s' : Store} {d d' : Deck} (op : Op) (h : Intact s d) (fits : op.Fits d)
      (ran : op.run s d = some (s', d')) : Intact s' d'

theorem Op.agrees {s' : Store} {d' : Deck} {op : Op} (agrees : d.Agrees s) (fits : op.Fits d)
    (ran : op.run s d = some (s', d')) : d'.Agrees s' := by
  cases op
  case advance edges ticks =>
    obtain ⟨⟨d', r⟩, advanced, made⟩ := Option.map_eq_some_iff.1 ran
    obtain ⟨rfl, rfl⟩ := Prod.mk.inj made
    exact agrees.advance advanced
  all_goals
    obtain ⟨rfl, rfl⟩ := Prod.mk.inj (Option.some.inj ran)
  case eject => exact fun i none => nomatch none
  case insert path => exact agrees.insert path
  case insertKnown path format => exact insertKnown_agrees d s path format
  case play =>
    rw [Deck.play]
    split
    · exact agrees
    · exact agrees.onPlayer fun t x p _ standing => standing.play
  case stop => exact agrees.onPlayer fun t x p _ standing => standing.paused p.remaining false
  case rewind =>
    exact agrees.onPlayer fun t x p indexed standing =>
      Player.standing_rewind indexed standing.start
  case seek ordinal => exact agrees.seek ordinal
  case send level tick =>
    rw [Deck.send]
    split
    · exact Knows.of_tape agrees (listen_tape _ _)
    · exact agrees
  case quiet tick => exact Knows.of_tape agrees (listen_tape _ _)
  case takeRecordings => exact Knows.of_tape agrees (listen_tape d Recorder.finish)
  case countBlocks => exact agrees.onTape fun i x agrees => agrees
  case summary ordinal => exact agrees.onTape fun i x agrees => agrees
  case listing => exact agrees.onTape fun i x agrees => agrees
  case toggle ordinal => exact agrees.toggle ordinal
  case rename ordinal name => exact agrees.rename ordinal name
  case moveSelection before => exact agrees.moveSelection before
  case removeSelection => exact agrees.removeSelection
  case saveRecordings => exact agrees.saveRecordings fits

theorem Intact.agrees (intact : Intact s d) : d.Agrees s := by
  induction intact with
  | new s settings => exact fun i none => nomatch none
  | next op _ fits ran ih => exact Op.agrees ih fits ran

/-- Whatever is done with a deck, and in whatever order, as long as no save fails half-way: the
path of its tape leads to the file it was opened from, the remembered length is that of the file,
and the file can be opened and indexed anew. A cached index is the one this gives, only blocks it
counts are marked, and the cursor is on one of them, where the file has it, or at the end. -/
theorem Intact.in_step (intact : Intact s d) (inserted : d.tape = some i) :
    s.resolve i.path = .ok i.object ∧ i.length = (s.contents i.object).size ∧
    Tape.ofImage i.format (.ofBytes (s.contents i.object)) = .ok (i.file s) ∧
    ∃ x, Index.ofTape (i.file s) = .ok x ∧ (∀ y, i.index = some y → y = x) ∧
      (d.countBlocks s).2 = .ok x.count ∧ (∀ k ∈ i.selection, k < x.count) ∧
      i.player.ordinal ≤ x.count ∧ i.player.offset = (i.file s).offsetAt i.player.ordinal ∧
      (i.player.ordinal = x.count → i.player.offset = (s.contents i.object).size) := by
  obtain ⟨x, agrees⟩ := intact.agrees i inserted
  obtain ⟨holds, length, selected, standing⟩ := id agrees
  have indexed : Indexed (i.file s) x := agrees.tape_eq ▸ agrees.indexed
  have offset : i.player.offset = (i.file s).offsetAt i.player.ordinal :=
    agrees.tape_eq ▸ standing.offset
  have count : (d.countBlocks s).2 = .ok x.count := by
    rw [countBlocks, onTape_eq inserted holds]
  refine ⟨holds.named, length, indexed.opened, x, indexed.indexed, holds.cached, count, selected,
    standing.ordinal_le, offset, fun last => ?_⟩
  rw [offset, indexed.offsetAt_of_le (Nat.le_of_eq last.symm)]
  rfl

/-- The cursor is moved to the second of two blocks, and this block is removed. -/
theorem in_step_removed :
    ∃ s i, Intact s { new .standard with tape := some i } ∧ s.contents i.object = #[1, 0, 0xA1] ∧
      i.length = 3 ∧ (countBlocks { new .standard with tape := some i } s).2 = .ok 1 ∧
      i.player.ordinal ≤ 1 ∧ i.player.offset = (i.file s).offsetAt i.player.ordinal := by
  let moved : Inserted := { twoBlocksTape with player := twoBlocksTape.player.seek 1 3 }
  have inserted : Intact twoBlocks { new .standard with tape := some twoBlocksTape } := by
    refine .next (.insert "a.tap") (.new twoBlocks .standard) trivial ?_
    rw [Op.run, insert_twoBlocks]
  have before : Intact twoBlocks { new .standard with tape := some moved } :=
    .next (.seek 1) inserted trivial rfl
  obtain ⟨x, holds⟩ := before.agrees.sound moved rfl
  obtain rfl : (⟨#[0], 2⟩ : Index) = x := holds.cached _ rfl
  have room : twoBlocks.draft "a.tap" = .ok "/./.tape-tool" := by decide +kernel
  -- Nothing is marked, so the block under the cursor is removed.
  have chosen : Selection.ofList [1] = if moved.selection.isEmpty then
      .ofList [moved.player.stop.ordinal] else moved.selection := rfl
  obtain ⟨s, i, y, removed, rearranged⟩ := removeSelection_eq
    (d := { new .standard with tape := some moved }) rfl rfl holds room chosen rfl (by decide)
  have after : Intact s { new .standard with tape := some i } := by
    refine .next .removeSelection before trivial ?_
    rw [Op.run, removed]
  have left : (twoBlocksTape.tape twoBlocks).measured.extents
      (Order.unselected 2 (.ofList [1])) = #[1, 0, 0xA1] := by decide +kernel
  obtain ⟨-, contents⟩ := Session.contents_twoBlocks rearranged.of_kept left
  rw [← show i.object = 1 from rearranged.object] at contents
  obtain ⟨-, length, -, z, -, -, counted, -, le, offset, -⟩ := after.in_step rfl
  have one : z.count = 1 := by
    rw [countBlocks, onTape_eq rfl rearranged.holds] at counted
    exact (Except.ok.inj counted).symm.trans rearranged.count
  rw [one] at counted le
  rw [contents] at length
  exact ⟨s, i, after, contents, length, counted, le, offset⟩

end Deck

end Cassette
