import Cassette.Proofs.Operating

/-! What comes of inserting a file. `Inserted.Refused` lists what may stand in the way of it, in
the order in which it is met, and the fault that says so; otherwise the tape is in the deck as
`Inserted.Fresh` has it. A tape that was in the deck before is gone either way. Only a name that
suggests no format is turned down while the old tape is still in the deck. Main statement:
`insert_outcome`. -/

namespace Cassette

open Deck

namespace Inserted

/-- What stands in the way of inserting a file, and the fault that says so. -/
inductive Refused (s : Store) (path : String) (format : Format) : Fault → Prop
  | missing (nowhere : s.resolve path = .error .notFound) : Refused s path format (.noFile path)
  | unresolved {fault : FileFault} (elsewhere : s.resolve path = .error fault)
      (other : fault ≠ .notFound) : Refused s path format (.file fault)
  | unsigned {object : Nat} {fault : ReadFault} (found : s.resolve path = .ok object)
      (unsigned : Tape.ofImage format (.ofBytes (s.contents object)) = .error fault) :
      Refused s path format (.ofRead fault)
  | empty {object : Nat} {t : Tape} (found : s.resolve path = .ok object)
      (opened : Tape.ofImage format (.ofBytes (s.contents object)) = .ok t)
      (none : t.isEmpty = true) : Refused s path format .cutShort
  | unread {object : Nat} {t : Tape} {fault : ReadFault} (found : s.resolve path = .ok object)
      (opened : Tape.ofImage format (.ofBytes (s.contents object)) = .ok t)
      (nonempty : t.isEmpty = false) (faulty : t.scan.fault = some fault) :
      Refused s path format (.ofRead fault)

/-- A tape as it comes out of its file: all blocks can be read and are counted, none of them is
marked, and the player is at the first. -/
structure Fresh (s : Store) (path : String) (format : Format) (settings : Settings)
    (i : Inserted) : Prop where
  named : i.path = path
  found : s.resolve path = .ok i.object
  opened : Tape.ofImage format (.ofBytes (s.contents i.object)) = .ok (i.tape s)
  nonempty : (i.tape s).isEmpty = false
  readable : (i.tape s).scan.fault = none
  indexed : i.index = some (.ofBlocks (i.tape s).scan.blocks)
  player : i.player = .new settings (i.tape s).start
  selection : i.selection = .empty
  writeProtected : i.writeProtected = decide (i.object ∈ s.locked)

variable {s : Store} {d : Deck} {i : Inserted} {t : Tape} {object : Nat} {fault : Fault}
  {path : String} {format : Format} {settings : Settings}

theorem openTape_eq_ok (settings : Settings) (found : s.resolve path = .ok object)
    (opened : Tape.ofImage format (.ofBytes (s.contents object)) = .ok t) :
    ∃ raw, openTape s path format settings = .ok raw ∧ raw.object = object ∧ raw.tape s = t := by
  obtain ⟨raw, made⟩ : ∃ raw, openTape s path format settings = .ok raw := by
    simp only [openTape, found, opened]
    exact ⟨_, rfl⟩
  obtain ⟨found', -, -, -, -, opened', -⟩ := tape_opened made
  obtain rfl := Except.ok.inj (found'.symm.trans found)
  exact ⟨raw, made, rfl, Except.ok.inj (opened'.symm.trans opened)⟩

/-- The tape of a file that can be read to its end is fresh with its index. -/
theorem fresh_opened {raw : Inserted} (made : openTape s path format settings = .ok raw)
    (nonempty : (raw.tape s).isEmpty = false) (readable : (raw.tape s).scan.fault = none) :
    Fresh s path format settings
      { raw with index := some (.ofBlocks (raw.tape s).scan.blocks) } := by
  obtain ⟨found, named, -, -, -, opened, -, player, selection, protected'⟩ := tape_opened made
  exact ⟨named, found, opened, nonempty, readable, rfl, player, selection, protected'⟩

theorem Fresh.unique {j : Inserted} (h : i.Fresh s path format settings)
    (h' : j.Fresh s path format settings) : i = j := by
  have object : i.object = j.object := Except.ok.inj (h.found.symm.trans h'.found)
  have tape : i.tape s = j.tape s := by
    apply Except.ok.inj
    rw [← h.opened, ← h'.opened, object]
  have index := h.indexed.trans (tape ▸ h'.indexed.symm)
  have player := h.player.trans (tape ▸ h'.player.symm)
  have selection := h.selection.trans h'.selection.symm
  have named := h.named.trans h'.named.symm
  have locked := h.writeProtected.trans (object ▸ h'.writeProtected.symm)
  obtain ⟨format, image, version⟩ := Tape.mk.inj tape
  have length := (Image.mk.inj image).2
  cases i
  cases j
  simp_all

theorem openIndexed_eq {raw : Inserted} (made : openTape s path format settings = .ok raw) :
    openIndexed s path format settings =
      if (raw.tape s).isEmpty then .error .cutShort
      else (Index.ofTape (raw.tape s)).map fun x => { raw with index := some x } := by
  obtain ⟨-, -, -, -, -, -, none, -⟩ := tape_opened made
  rw [openIndexed, made]
  simp only [bind, Except.bind, Inserted.indexed, none]
  cases Index.ofTape (raw.tape s) <;> rfl

theorem Fresh.openIndexed_eq (h : i.Fresh s path format settings) :
    openIndexed s path format settings = .ok i := by
  obtain ⟨raw, made, -, tape⟩ := openTape_eq_ok settings h.found h.opened
  have nonempty : (raw.tape s).isEmpty = false := tape ▸ h.nonempty
  have readable : (raw.tape s).scan.fault = none := tape ▸ h.readable
  obtain rfl := h.unique (fresh_opened made nonempty readable)
  rw [openIndexed_eq made, nonempty, Index.ofTape, readable]
  rfl

theorem Refused.openIndexed_eq (h : Refused s path format fault) (settings : Settings) :
    openIndexed s path format settings = .error fault := by
  cases h with
  | missing nowhere =>
    rw [openIndexed, openTape, nowhere]
    rfl
  | @unresolved fault elsewhere other =>
    rw [openIndexed, openTape, elsewhere]
    cases fault <;> first | rfl | exact absurd rfl other
  | unsigned found unsigned =>
    rw [openIndexed, openTape, found]
    simp only [unsigned]
    rfl
  | empty found opened none =>
    obtain ⟨raw, made, -, rfl⟩ := openTape_eq_ok settings found opened
    rw [openIndexed_eq made, if_pos none]
  | unread found opened nonempty faulty =>
    obtain ⟨raw, made, -, rfl⟩ := openTape_eq_ok settings found opened
    rw [openIndexed_eq made, nonempty, Index.ofTape, faulty]
    rfl

/-- A file is inserted unless something stands in its way. -/
theorem fresh_or_refused (s : Store) (path : String) (format : Format) (settings : Settings) :
    (∃ i, Fresh s path format settings i) ∨ ∃ fault, Refused s path format fault := by
  cases found : s.resolve path with
  | error fault =>
    by_cases nowhere : fault = .notFound
    · exact .inr ⟨_, .missing (nowhere ▸ found)⟩
    · exact .inr ⟨_, .unresolved found nowhere⟩
  | ok object =>
    cases opened : Tape.ofImage format (.ofBytes (s.contents object)) with
    | error fault => exact .inr ⟨_, .unsigned found opened⟩
    | ok t =>
      cases empty : t.isEmpty with
      | true => exact .inr ⟨_, .empty found opened empty⟩
      | false =>
        cases read : t.scan.fault with
        | some fault => exact .inr ⟨.ofRead fault, .unread found opened empty read⟩
        | none =>
          obtain ⟨raw, made, -, rfl⟩ := openTape_eq_ok settings found opened
          exact .inl ⟨_, fresh_opened made empty read⟩

theorem Fresh.not_refused (h : i.Fresh s path format settings) : ¬ Refused s path format fault := by
  intro refused
  cases h.openIndexed_eq.symm.trans (refused.openIndexed_eq settings)

/-- The player of a fresh tape is stopped at the first block, and the deck counts the blocks of
the whole file. -/
theorem Fresh.in_deck (h : i.Fresh s path format settings) (inserted : d.tape = some i) :
    d.isPlaying = false ∧ d.hasRunOut = false ∧ d.cursor = 0 ∧
      d.countBlocks s = (d, .ok (i.tape s).scan.blocks.size) := by
  obtain ⟨settings, tape, recorder, recordings⟩ := d
  obtain rfl : tape = some i := inserted
  refine ⟨?_, ?_, ?_, ?_⟩
  · simp [isPlaying, h.player, Player.new]
  · simp [hasRunOut, h.player, Player.new]
  · simp [cursor, h.player, Player.new]
  · simp only [countBlocks, onTape, Inserted.indexed, h.indexed, Index.ofBlocks]

theorem Fresh.indexed_tape (h : i.Fresh s path format settings) {x : Index}
    (index : i.index = some x) : Indexed (i.tape s) x := by
  obtain rfl := Option.some.inj (h.indexed.symm.trans index)
  obtain ⟨same, image, -⟩ := Tape.of_ofImage h.opened
  refine ⟨?_, ?_⟩
  · rw [same]
    exact h.opened
  · rw [Index.ofTape, h.readable]

theorem Fresh.insert_eq (h : i.Fresh s path format d.settings)
    (suggested : Format.ofPath? path = some format) :
    d.insert s path = ({ d with tape := some i }, .ok ()) := by
  rw [Deck.insert, suggested]
  simp only [insertKnown, h.openIndexed_eq]

/-- A tape that has been inserted is fresh. -/
theorem fresh_inserted (inserted : d.insert s path = ({ d with tape := some i }, .ok ())) :
    ∃ format, i.Fresh s path format d.settings := by
  rw [Deck.insert] at inserted
  cases suggested : Format.ofPath? path with
  | none =>
    rw [suggested] at inserted
    cases (Prod.mk.inj inserted).2
  | some format =>
    rw [suggested] at inserted
    refine ⟨format, ?_⟩
    rcases fresh_or_refused s path format d.settings with ⟨j, fresh⟩ | ⟨fault, refused⟩
    · simp only [insertKnown, fresh.openIndexed_eq] at inserted
      obtain rfl := Option.some.inj (congrArg Deck.tape (Prod.mk.inj inserted).1)
      exact fresh
    · simp only [insertKnown, refused.openIndexed_eq] at inserted
      cases (Prod.mk.inj inserted).2

end Inserted

namespace Deck

open Inserted

/-- Inserting a file of a known format puts its tape into the deck, stopped at the first block
with nothing marked and every block counted, or it names what stands in the way and leaves no
tape there, whatever was in the deck before. The format is the one that the name of the file
suggests; if it suggests none, the deck is left as it was. -/
theorem insert_outcome (d : Deck) (s : Store) (path : String) :
    (∀ format,
      (∃ i, i.Fresh s path format d.settings ∧ (∀ fault, ¬ Refused s path format fault) ∧
        let d' := { d with tape := some i }
        d.insertKnown s path format = (d', .ok ()) ∧ d'.isPlaying = false ∧
          d'.hasRunOut = false ∧ d'.cursor = 0 ∧
          d'.countBlocks s = (d', .ok (i.tape s).scan.blocks.size)) ∨
      ∃ fault, Refused s path format fault ∧
        d.insertKnown s path format = ({ d with tape := none }, .error fault)) ∧
      ((∃ format, Format.ofPath? path = some format ∧
        d.insert s path = d.insertKnown s path format) ∨
        Format.ofPath? path = none ∧ d.insert s path = (d, .error (.wrongFormat path))) := by
  refine ⟨fun format => ?_, ?_⟩
  · rcases fresh_or_refused s path format d.settings with ⟨i, fresh⟩ | ⟨fault, refused⟩
    · refine .inl ⟨i, fresh, fun _ => fresh.not_refused, ?_, fresh.in_deck rfl⟩
      rw [insertKnown, fresh.openIndexed_eq]
    · refine .inr ⟨fault, refused, ?_⟩
      rw [insertKnown, refused.openIndexed_eq, eject]
  · rw [insert]
    cases Format.ofPath? path with
    | some format => exact .inl ⟨format, rfl, rfl⟩
    | none => exact .inr ⟨rfl, rfl⟩

/-- A TAP image is inserted by its name; it is too short to be a TZX image, and to insert it as
one leaves no tape. -/
theorem insert_outcome_short :
    let d : Deck := { new .standard with tape := some twoBlocksTape }
    (∃ i, d.insert twoBlocks "a.tap" = ({ d with tape := some i }, .ok ())) ∧
      d.insertKnown twoBlocks "a.tap" .tzx = (new .standard, .error .cutShort) := by
  intro d
  obtain ⟨known, named⟩ := insert_outcome d twoBlocks "a.tap"
  constructor
  · obtain ⟨format, suggested, same⟩ | ⟨none, -⟩ := named
    · have tap : Format.ofPath? "a.tap" = some .tap := by decide
      obtain rfl := Option.some.inj (tap.symm.trans suggested)
      rw [same]
      obtain ⟨i, -, -, inserted, -⟩ | ⟨fault, refused, -⟩ := known .tap
      · exact ⟨i, inserted⟩
      · have fresh : twoBlocksTape.Fresh twoBlocks "a.tap" .tap .standard :=
          ⟨rfl, rfl, rfl, rfl, by decide +kernel, by decide +kernel, rfl, rfl, rfl⟩
        exact absurd refused fresh.not_refused
    · exact absurd none (by decide)
  · have short : Refused twoBlocks "a.tap" .tzx (.ofRead (.truncated "TZX header" 0 10 6)) :=
      .unsigned rfl rfl
    obtain ⟨i, -, free, -⟩ | ⟨fault, refused, failed⟩ := known .tzx
    · exact absurd short (free _)
    · cases (refused.openIndexed_eq .standard).symm.trans (short.openIndexed_eq .standard)
      exact failed

/-- A name that suggests no format is an error, and the tape that was in the deck is still there. -/
theorem insert_unnamed :
    let d := ((new .standard).insert twoBlocks "a.tap").1
    d.insert twoBlocks "b.txt" = (d, .error (.wrongFormat "b.txt")) ∧
      d.tape = some twoBlocksTape := by
  intro d
  have inserted : d.tape = some twoBlocksTape := by
    simp only [d, insert_twoBlocks]
  refine ⟨?_, inserted⟩
  rw [insert, show Format.ofPath? "b.txt" = none by decide]

end Deck

end Cassette
