import Cassette.Proofs.Agreement
import Cassette.Proofs.Editing
import Cassette.Proofs.Ending
import Cassette.Proofs.Inserting

/-! Edited tapes. What a successful edit leaves in the deck is the whole file (`Sound.done`), and
a tape that is its whole file can be inserted into any deck, to be counted and listed there as it
is here, unless no block is left on it (`Holds.insertKnown_eq`). Main statement:
`Reachable.edited_again`. -/

namespace Cassette

theorem Indexed.isEmpty_iff {t : Tape} {x : Index} (h : Indexed t x) :
    t.isEmpty = true ↔ x.count = 0 := by
  rw [Tape.isEmpty, decide_eq_true_iff]
  constructor
  · intro full
    by_contra some
    obtain ⟨b, -, read, -⟩ := h.read (Nat.pos_of_ne_zero some)
    rw [h.offsetAt_zero] at read
    have fits := (Tape.blockAt?_fits h.whole read).2
    have size := b.size_pos
    omega
  · intro none
    have last := h.offsetAt_of_le (Nat.le_of_eq none)
    rw [h.offsetAt_zero] at last
    exact Nat.le_of_eq last.symm

namespace Deck

variable {s : Store} {d : Deck} {i : Inserted} {x : Index}

theorem listing_summaries (inserted : d.tape = some i) (holds : i.Holds s x) :
    (d.listing s).2 = (i.tape s).summaries := by
  rw [Deck.listing, onTape_eq inserted holds]
  rfl

end Deck

namespace Inserted

open Deck

variable {s : Store} {i : Inserted} {x : Index}

/-- A tape that is its whole file can be inserted from there, unless it has no block. -/
theorem Holds.insertKnown_eq (holds : i.Holds s x) (length : i.length = (s.contents i.object).size)
    (d : Deck) :
    if x.count = 0 then d.insertKnown s i.path i.format = (d.eject, .error .cutShort)
    else ∃ j, d.insertKnown s i.path i.format = ({ d with tape := some j }, .ok ()) ∧
      j.Holds s x ∧ j.tape s = i.tape s := by
  have indexed := holds.indexed_of_length length
  have opened : Tape.ofImage i.format (.ofBytes (s.contents i.object)) = .ok (i.tape s) :=
    indexed.opened
  obtain ⟨raw, made, object, tape⟩ := openTape_eq_ok d.settings holds.named opened
  have known := openIndexed_eq made
  rw [tape] at known
  split
  · next none =>
    rw [if_pos (indexed.isEmpty_iff.2 none)] at known
    rw [insertKnown, known]
  · next some =>
    rw [if_neg (mt indexed.isEmpty_iff.1 some), indexed.indexed] at known
    have there : raw.object < s.objects.size := object ▸ holds.there
    have fresh := (holds_opened made there (tape ▸ indexed.indexed)).kept raw.player raw.selection
      fun _ cached => (Option.some.inj cached).symm
    refine ⟨_, ?_, fresh, tape⟩
    rw [insertKnown, known]
    rfl

end Inserted

namespace Deck

variable {s s' : Store} {d d' : Deck} {i : Inserted} {x : Index} {taken : Nat} {edit : Edit}

theorem Edit.taken_eq_zero (other : edit ≠ .removeSelection)
    (done : edit.run s d = (s', d', .ok taken)) : taken = 0 := by
  have none {α : Type} {r : Except Fault α} (mapped : (r.map fun _ => 0) = .ok taken) :
      taken = 0 := by
    cases r with
    | error fault => cases mapped
    | ok a => exact (Except.ok.inj mapped).symm
  have result := congrArg (·.2.2) done
  cases edit with
  | removeSelection => exact absurd rfl other
  | rename | moveSelection => exact none result

/-- An edit that succeeds leaves a tape in the deck that is its whole file, if it was before its
header was written over. -/
theorem Sound.done (sound : d.Sound s) (done : edit.run s d = (s', d', .ok taken))
    (whole : ∀ ordinal name, edit = .rename ordinal name →
      ∀ i, d.tape = some i → i.length = (s.contents i.object).size) :
    ∃ i x i' y, d.tape = some i ∧ i.Holds s x ∧ d'.tape = some i' ∧ i'.Holds s' y ∧
      i'.path = i.path ∧ i'.format = i.format ∧ i'.length = (s'.contents i'.object).size ∧
      x.count = y.count + taken := by
  have edited := sound.edited edit
  rw [done] at edited
  cases edited with
  | @renamed i x ordinal name t came inserted holds renamed =>
    have length := whole ordinal name rfl i inserted
    have holds' := (holds.renamed renamed).kept i.player.stop .empty
      fun y cached => (Option.some.inj cached : x = y).symm
    refine ⟨i, x, _, x, inserted, holds, rfl, holds', rfl, rfl, ?_, rfl⟩
    show i.length = ((s.overwrite i.object t.image.bytes).contents i.object).size
    rw [Store.contents_overwrite holds.there]
    exact holds.renamed_size length renamed
  | @rearranged _ i i' x y order _ _ inserted holds rearranged count =>
    obtain ⟨-, named, format, length, -⟩ := Inserted.tape_opened rearranged.opened
    refine ⟨i, x, i', y, inserted, holds, rfl, rearranged.holds, named, format, length, ?_⟩
    rw [rearranged.count, count]

/-- Whatever has been done with a deck before: after an edit that succeeds, its tape has as many
blocks as before but for those that the edit has removed. Inserted from there into any deck, it
has as many blocks and the same listing; only if no block is left, it is refused as too short.
The file of a tape that is renamed must be no longer than it was when it was opened. -/
theorem Reachable.edited_again (reachable : Reachable s d)
    (done : edit.run s d = (s', d', .ok taken))
    (whole : ∀ ordinal name, edit = .rename ordinal name →
      ∀ i, d.tape = some i → i.length = (s.contents i.object).size) :
    ∃ i n listing, d.tape = some i ∧ (edit ≠ .removeSelection → taken = 0) ∧
      (d.countBlocks s).2 = .ok (n + taken) ∧ (d'.countBlocks s').2 = .ok n ∧
      (d'.listing s').2 = .ok listing ∧
      (∀ e : Deck, if n = 0 then (e.insertKnown s' i.path i.format).2 = .error .cutShort
        else ∃ e', e.insertKnown s' i.path i.format = (e', .ok ()) ∧
          (e'.countBlocks s').2 = .ok n ∧ (e'.listing s').2 = .ok listing) ∧
      (Format.ofPath? i.path = some i.format →
        ∀ e : Deck, e.insert s' i.path = e.insertKnown s' i.path i.format) := by
  obtain ⟨i, x, i', y, inserted, holds, inserted', holds', named, format, length, count⟩ :=
    reachable.sound.done done whole
  obtain ⟨listing, listed⟩ := (holds'.indexed_of_length length).summaries
  refine ⟨i, y.count, listing, inserted, fun other => Edit.taken_eq_zero other done, ?_,
    countBlocks_eq inserted' holds', (listing_summaries inserted' holds').trans listed,
    fun e => ?_, fun suggested e => ?_⟩
  · rw [countBlocks_eq inserted holds, count]
  · have again := holds'.insertKnown_eq length e
    rw [named, format] at again
    split at again
    · next none => rw [if_pos none, again]
    · next some =>
      obtain ⟨j, made, kept, tape⟩ := again
      rw [if_neg some]
      refine ⟨_, made, countBlocks_eq rfl kept, ?_⟩
      rw [listing_summaries rfl kept, tape, listed]
  · rw [insert, suggested]

/-- The first of two blocks is removed, and what is left is inserted into a new deck. -/
theorem edited_again_removed :
    let d : Deck := { new .standard with tape := some twoBlocksTape }
    ∃ s' d' e', d.removeSelection twoBlocks = (s', d', .ok 1) ∧
      (new .standard).insert s' "a.tap" = (e', .ok ()) ∧ (e'.countBlocks s').2 = .ok 1 ∧
      (e'.listing s').2 = (d'.listing s').2 := by
  intro d
  obtain ⟨x, holds⟩ := reachable_twoBlocks.sound twoBlocksTape rfl
  obtain rfl : (⟨#[0], 2⟩ : Index) = x := holds.cached _ rfl
  -- Nothing is marked, so the block under the cursor is removed.
  have chosen : Selection.ofList [0] = if twoBlocksTape.selection.isEmpty then
      .ofList [twoBlocksTape.player.stop.ordinal] else twoBlocksTape.selection := rfl
  obtain ⟨s', i', y, removed, -⟩ :=
    removeSelection_eq (d := d) rfl rfl holds draft_twoBlocks chosen rfl (by decide)
  have done : Edit.removeSelection.run twoBlocks d = (s', { d with tape := some i' }, .ok 1) :=
    removed
  obtain ⟨i, n, listing, there, -, before, -, listed, again, named⟩ :=
    reachable_twoBlocks.edited_again done fun _ _ same => nomatch same
  obtain rfl := Option.some.inj there
  have two : n + 1 = 2 :=
    Except.ok.inj (before.symm.trans (countBlocks_eq (d := d) rfl holds))
  obtain rfl : n = 1 := Nat.succ.inj two
  obtain ⟨e', made, counted, same⟩ := again (new .standard)
  have suggested : Format.ofPath? "a.tap" = some .tap := by decide
  exact ⟨s', _, e', removed, (named suggested _).trans made, counted, same.trans listed.symm⟩

/-- Both of two blocks are removed, and what is left cannot be inserted. -/
theorem emptied_not_inserted :
    let d : Deck :=
      { new .standard with tape := some { twoBlocksTape with selection := .ofList [0, 1] } }
    ∃ s' d', Reachable twoBlocks d ∧ d.removeSelection twoBlocks = (s', d', .ok 2) ∧
      (d'.countBlocks s').2 = .ok 0 ∧
      ((new .standard).insert s' "a.tap").2 = .error .cutShort := by
  intro d
  have marked : Reachable twoBlocks d :=
    .next (.toggle 1) (.next (.toggle 0) reachable_twoBlocks rfl) rfl
  obtain ⟨x, holds⟩ := marked.sound _ rfl
  obtain rfl : (⟨#[0], 2⟩ : Index) = x := holds.cached _ rfl
  obtain ⟨s', i', y, removed, rearranged⟩ :=
    removeSelection_eq (d := d) rfl rfl holds draft_twoBlocks rfl rfl (by decide)
  obtain ⟨-, named, format, length, -⟩ := Inserted.tape_opened rearranged.opened
  have none : y.count = 0 := rearranged.count
  have refused := rearranged.holds.insertKnown_eq length (new .standard)
  rw [if_pos none, named, format] at refused
  refine ⟨s', _, marked, removed, none ▸ countBlocks_eq rfl rearranged.holds, ?_⟩
  rw [insert, show Format.ofPath? "a.tap" = some .tap by decide]
  exact congrArg Prod.snd refused

end Deck

end Cassette
