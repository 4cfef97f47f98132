import Cassette.Deck
import Cassette.Proofs.Appending
import Cassette.Proofs.Files
import Cassette.Proofs.Renaming

/-! What a deck can rely on about the tape in it. `Inserted.Holds` says that the file of the tape
begins with the tape as it was opened, which can be indexed, and that only a save that failed
half-way has left more behind it. A tape that has just been opened is held (`holds_opened`), and
so is one whose file has been edited: by overwriting a header (`Holds.renamed`), by putting blocks
in another order (`Holds.rearranged`), or by appending blocks (`Holds.grown`). -/

namespace Cassette

open Image

namespace Inserted

variable {s : Store} {i : Inserted} {x : Index} {path : String} {format : Format}
  {settings : Settings}

/-- The tape that would be found if the file were opened now. -/
def file (i : Inserted) (s : Store) : Tape :=
  { i.tape s with image := .ofBytes (s.contents i.object) }

/-- The file of an inserted tape is still found by its path. It begins with the tape as it was
opened, and behind that are only blocks left there by saves that failed. -/
structure Holds (s : Store) (i : Inserted) (x : Index) : Prop where
  named : s.resolve i.path = .ok i.object
  there : i.object < s.objects.size
  covered : (i.tape s).image.Covered
  indexed : Indexed (i.tape s).measured x
  cached : ∀ y, i.index = some y → y = x
  left : ∃ saved written, Tap.frames saved = (written, .ok ()) ∧ (saved = [] ∨ i.format = .tap) ∧
    s.contents i.object = (i.tape s).measured.image.bytes ++ written

theorem Holds.kept (h : i.Holds s x) (player : Player) (selection : Selection)
    {index : Option Index} (cached : ∀ y, index = some y → y = x) :
    Holds s { i with player, selection, index } x :=
  ⟨h.named, h.there, h.covered, h.indexed, cached, h.left⟩

theorem Holds.indexed_eq (h : i.Holds s x) : i.indexed s = .ok ({ i with index := some x }, x) := by
  rw [Inserted.indexed]
  cases cached : i.index with
  | some y =>
    obtain rfl := h.cached y cached
    obtain ⟨⟩ := i
    obtain rfl := cached
    rfl
  | none =>
    have made : Index.ofTape (i.tape s) = .ok x := by
      rw [← Tape.ofTape_measured h.covered]
      exact h.indexed.indexed
    simp only [made]
    rfl

/-- The file can be opened and indexed anew, and begins with the blocks of the tape. -/
theorem Holds.file_indexed (h : i.Holds s x) : ∃ y, Indexed (i.file s) y ∧ x.count ≤ y.count := by
  obtain ⟨saved, written, framed, either, contents⟩ := h.left
  rcases either with rfl | tap
  · obtain ⟨rfl, -⟩ := Prod.mk.inj framed
    rw [Array.append_empty] at contents
    have same : i.file s = (i.tape s).measured := by
      rw [file, contents]
      rfl
    exact ⟨x, same ▸ h.indexed, Nat.le_refl _⟩
  · obtain ⟨y, indexed, count, -⟩ := Tape.indexed_appended h.indexed tap framed
    rw [← contents] at indexed
    exact ⟨y, indexed, count ▸ Nat.le_add_right _ _⟩

theorem Holds.append_eq (h : i.Holds s x) (written : Bytes) :
    s.append i.path written = .ok (s.overwrite i.object (s.contents i.object ++ written)) := by
  rw [Store.append, h.named]
  rfl

/-! ### Opening -/

theorem tape_opened (opened : openTape s path format settings = .ok i) :
    s.resolve path = .ok i.object ∧ i.path = path ∧ i.format = format ∧
      i.length = (s.contents i.object).size ∧ i.tape s = i.file s ∧
      Tape.ofImage format (.ofBytes (s.contents i.object)) = .ok (i.tape s) ∧
      i.index = none ∧ i.player = .new settings (i.tape s).start ∧ i.selection = .empty ∧
      i.writeProtected = decide (i.object ∈ s.locked) := by
  rw [openTape] at opened
  split at opened
  · exact nomatch opened
  · exact nomatch opened
  · next object named =>
    split at opened
    · exact nomatch opened
    · next t found =>
      obtain rfl := Except.ok.inj opened
      obtain ⟨rfl, image, -⟩ := Tape.of_ofImage found
      have length : t.length = (s.contents object).size := by
        rw [Tape.length, image]
        rfl
      have same : (⟨t.format, ⟨s.contents object, t.length⟩, t.version⟩ : Tape) = t := by
        rw [length]
        obtain ⟨⟩ := t
        obtain rfl := image
        rfl
      refine ⟨named, rfl, rfl, length, ?_, ?_, rfl, ?_, rfl, rfl⟩
      · rw [file, tape, length]
        rfl
      · rw [tape, same]
        exact found
      · rw [tape, same]

/-- A tape that has just been opened is held, if its file is there and can be indexed. -/
theorem holds_opened (opened : openTape s path format settings = .ok i)
    (there : i.object < s.objects.size) (indexed : Index.ofTape (i.tape s) = .ok x) :
    i.Holds s x := by
  obtain ⟨named, rfl, rfl, length, same, image, cached, -⟩ := tape_opened opened
  have whole : (i.tape s).image.Whole := length
  have measured : (i.tape s).measured = i.tape s := by
    rw [Tape.measured, whole.measured]
  have bytes : (i.tape s).measured.image.bytes = s.contents i.object := by
    rw [measured]
    rfl
  refine ⟨named, there, whole.covered, ?_, ?_, [], #[], rfl, .inl rfl, ?_⟩
  · rw [measured]
    exact ⟨image, indexed⟩
  · intro y there
    rw [cached] at there
    cases there
  · rw [bytes, Array.append_empty]

/-! ### Writing to the file -/

theorem tape_overwrite (there : i.object < s.objects.size) (bytes : Bytes) :
    i.tape (s.overwrite i.object bytes) =
      { i.tape s with image := { (i.tape s).image with bytes } } := by
  simp only [tape, Store.contents_overwrite there]

/-- A tape with a header written over is still held. -/
theorem Holds.renamed (h : i.Holds s x) {ordinal : Nat} {name : String} {t : Tape}
    {came : Renaming} (renamed : (i.tape s).rename x ordinal name = .ok (t, came)) :
    i.Holds (s.overwrite i.object t.image.bytes) x := by
  obtain ⟨placed, new, inside, rfl, indexed, -⟩ :=
    Tape.rename_indexed h.covered h.indexed renamed
  obtain ⟨saved, written, framed, either, contents⟩ := h.left
  have length : i.length ≤ (s.contents i.object).size := h.covered
  have within : placed.offset + new.size ≤ (s.contents i.object).size := Nat.le_trans inside length
  let bytes : Bytes := patch (s.contents i.object) placed.offset new
  have tape : i.tape (s.overwrite i.object bytes) = (i.tape s).overwritten placed new :=
    tape_overwrite h.there bytes
  have measured := Tape.overwritten_measured h.covered inside
  refine ⟨?_, ?_, ?_, ?_, h.cached, saved, written, framed, either, ?_⟩
  · rw [Store.resolve_overwrite]
    exact h.named
  · rw [Store.size_overwrite]
    exact h.there
  · show (i.tape (s.overwrite i.object bytes)).image.Covered
    rw [tape]
    show i.length ≤ bytes.size
    rwa [size_patch within]
  · show Indexed (i.tape (s.overwrite i.object bytes)).measured x
    rw [tape]
    exact indexed
  · show (s.overwrite i.object bytes).contents i.object =
      (i.tape (s.overwrite i.object bytes)).measured.image.bytes ++ written
    have front : placed.offset + new.size ≤ (i.tape s).measured.image.bytes.size := by
      rw [show (i.tape s).measured.image.bytes.size = i.length from measured_length h.covered]
      exact inside
    rw [tape, measured, Store.contents_overwrite h.there]
    show patch (s.contents i.object) placed.offset new = _
    rw [contents, patch_append front]
    rfl

/-- A tape behind which blocks are appended is still held. -/
theorem Holds.grown (h : i.Holds s x) (tap : i.format = .tap) {queue : List Bytes}
    {written : Bytes} (framed : Tap.frames queue = (written, .ok ())) :
    i.Holds (s.overwrite i.object (s.contents i.object ++ written)) x := by
  obtain ⟨saved, before, framed', -, contents⟩ := h.left
  have length : i.length ≤ (s.contents i.object).size := h.covered
  let bytes : Bytes := s.contents i.object ++ written
  have tape : i.tape (s.overwrite i.object bytes) =
      { i.tape s with image := { (i.tape s).image with bytes } } := tape_overwrite h.there bytes
  have measured : (i.tape (s.overwrite i.object bytes)).measured = (i.tape s).measured := by
    rw [tape, Tape.measured, Tape.measured]
    simp only [Image.measured, bytes, Inserted.tape, Array.extract_append, Nat.zero_sub,
      Nat.sub_eq_zero_of_le length, Array.extract_zero, Array.append_empty]
  refine ⟨?_, ?_, ?_, ?_, h.cached, saved ++ queue, before ++ written,
    Tap.frames_append framed' framed, .inr tap, ?_⟩
  · rw [Store.resolve_overwrite]
    exact h.named
  · rw [Store.size_overwrite]
    exact h.there
  · show (i.tape (s.overwrite i.object bytes)).image.Covered
    rw [tape]
    show i.length ≤ bytes.size
    rw [Array.size_append]
    exact Nat.le_trans length (Nat.le_add_right _ _)
  · rw [measured]
    exact h.indexed
  · rw [measured, Store.contents_overwrite h.there, contents, Array.append_assoc]

/-! ### A new file -/

/-- Another tape is in the place of one: its file has the header and the blocks in an order. -/
structure Rearranged (settings : Settings) (s : Store) (i : Inserted) (order : List Nat)
    (s' : Store) (i' : Inserted) (y : Index) : Prop where
  holds : i'.Holds s' y
  opened : Inserted.openTape s' i.path i.format settings = .ok i'
  object : i'.object = s.objects.size
  contents : s'.contents i'.object = (i.tape s).measured.image.slice 0 (i.tape s).start ++
    (i.tape s).measured.extents order
  count : y.count = order.length
  same : ∀ j k, order[j]? = some k →
    Same (i.tape s).measured.image ((i.tape s).measured.offsetAt k) (i'.tape s').image
      ((i'.tape s').offsetAt j)
      ((i.tape s).measured.offsetAt (k + 1) - (i.tape s).measured.offsetAt k)
  others : ∀ other < s.objects.size, s'.contents other = s.contents other

/-- It makes no difference what the player, selection and index of the old tape were. -/
theorem Rearranged.of_kept {order : List Nat} {s' : Store} {i' : Inserted} {y : Index}
    {player : Player} {selection : Selection} {index : Option Index}
    (h : Rearranged settings s { i with player, selection, index } order s' i' y) :
    Rearranged settings s i order s' i' y :=
  ⟨h.holds, h.opened, h.object, h.contents, h.count, h.same, h.others⟩

/-- Blocks can be put in any order, if there is room for the path of the new file. -/
theorem Holds.rearranged (h : i.Holds s x) {order : List Nat} (inside : ∀ k ∈ order, k < x.count)
    {draft : String} (room : s.draft i.path = .ok draft) (settings : Settings) :
    ∃ s' i' y, Deck.rearrange settings s i x (.ok order) = (s', i', .ok ()) ∧
      Rearranged settings s i order s' i' y := by
  obtain ⟨out, done⟩ := Tape.splice_eq h.indexed inside
  rw [Tape.splice_measured h.covered h.indexed] at out done
  generalize copied : (i.tape s).splice x order = copy at out done
  -- What was copied can be opened and indexed, so it can take the place of the file.
  obtain ⟨t, y, found, -, indexed, count, same⟩ := Tape.indexed_joined h.indexed inside out
  obtain ⟨s', replaced, named, contents, there, others⟩ := Store.replace_eq h.named copy.out
  have found' : Tape.ofImage i.format (.ofBytes copy.out) = .ok t := found
  obtain ⟨i', opened⟩ : ∃ i', openTape s' i.path i.format settings = .ok i' := by
    simp only [openTape, named, contents, found']
    exact ⟨_, rfl⟩
  obtain ⟨named', -, -, -, -, image, -⟩ := tape_opened opened
  have object : i'.object = s.objects.size := Except.ok.inj (named'.symm.trans named)
  rw [object, contents] at image
  have tape : i'.tape s' = t := Except.ok.inj (image.symm.trans found')
  have index : Index.ofTape (i'.tape s') = .ok y := tape ▸ indexed.indexed
  refine ⟨s', i', y, ?_, ?_⟩
  · have refreshed : Deck.refresh settings s' i = (i', .ok ()) := by
      rw [Deck.refresh, opened]
    unfold Deck.rearrange
    simp only [room, copied, done, replaced, refreshed]
  · exact {
      holds := holds_opened opened (object ▸ there) index
      opened := opened
      object := object
      contents := by
        rw [object, contents]
        exact out
      count := count
      same := by
        rw [tape]
        exact same
      others := others }

/-! ### A longer file -/

/-- Another tape is in the place of one: its file is the old one with a queue of blocks behind. -/
structure Appended (settings : Settings) (s : Store) (i : Inserted) (queue : List Bytes)
    (s' : Store) (i' : Inserted) (y y' : Index) : Prop where
  holds : i'.Holds s' y'
  opened : Inserted.openTape s' i.path i.format settings = .ok i'
  object : i'.object = i.object
  before : Indexed (i.file s) y
  after : Indexed (i'.tape s') y'
  count : y'.count = y.count + queue.length
  same : ∀ k < y.count, ∃ b, y.find (i.file s) k = .ok b ∧ y'.find (i'.tape s') k = .ok b ∧
    b.payloadIn (i'.tape s').image = b.payloadIn (i.file s).image
  new : ∀ k payload, queue[k]? = some payload → ∃ b,
    y'.find (i'.tape s') (y.count + k) = .ok b ∧ b.payloadIn (i'.tape s').image = some payload

theorem Holds.appended (h : i.Holds s x) (tap : i.format = .tap) {queue : List Bytes}
    {written : Bytes} (framed : Tap.frames queue = (written, .ok ())) (settings : Settings) :
    ∃ i' y y', Appended settings s i queue
      (s.overwrite i.object (s.contents i.object ++ written)) i' y y' := by
  let bytes : Bytes := s.contents i.object ++ written
  let s' := s.overwrite i.object bytes
  obtain ⟨y, before, -⟩ := h.file_indexed
  obtain ⟨y', after, count, same, new⟩ := Tape.indexed_appended before tap framed
  have named : s'.resolve i.path = .ok i.object := Store.resolve_overwrite.trans h.named
  have contents : s'.contents i.object = bytes := Store.contents_overwrite h.there
  have there : i.object < s'.objects.size := Store.size_overwrite.symm ▸ h.there
  have found : Tape.ofImage i.format (.ofBytes bytes) =
      .ok { i.file s with image := .ofBytes bytes } := after.opened
  obtain ⟨i', opened⟩ : ∃ i', openTape s' i.path i.format settings = .ok i' := by
    simp only [openTape, named, contents, found]
    exact ⟨_, rfl⟩
  obtain ⟨named', -, -, -, -, image, -⟩ := tape_opened opened
  have object : i'.object = i.object := Except.ok.inj (named'.symm.trans named)
  rw [object, contents] at image
  have tape : i'.tape s' = { i.file s with image := .ofBytes bytes } :=
    Except.ok.inj (image.symm.trans found)
  have index : Index.ofTape (i'.tape s') = .ok y' := tape ▸ after.indexed
  rw [← object] at there
  refine ⟨i', y, y', ?_⟩
  exact {
    holds := holds_opened opened there index
    opened := opened
    object := object
    before := before
    after := tape ▸ after
    count := count
    same := by
      rw [tape]
      exact same
    new := by
      rw [tape]
      exact new }

end Inserted

end Cassette
