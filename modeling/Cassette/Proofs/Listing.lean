import Cassette.Proofs.Naming
import Cassette.Proofs.Reinserting

/-! Listings. A listing reads all blocks in one pass and then their headers; a summary finds its
block through the sparse table and reads nothing else. Both come to the same (`summaries_listed`),
also where a save that failed has left blocks behind the tape (`summaries_measured`). Main
statement: `Deck.Reachable.listed`. -/

namespace Cassette

theorem forall₂_of_mapM {α β ε : Type} {f : α → Except ε β} {l : List α} {l' : List β}
    (mapped : l.mapM f = .ok l') : List.Forall₂ (fun a b => f a = .ok b) l l' := by
  induction l generalizing l' with
  | nil =>
    obtain rfl := Except.ok.inj mapped
    exact .nil
  | cons a l ih =>
    rw [List.mapM_cons] at mapped
    obtain ⟨b, here, mapped⟩ := bind_eq_ok_iff.1 mapped
    obtain ⟨bs, others, mapped⟩ := bind_eq_ok_iff.1 mapped
    obtain rfl := Except.ok.inj mapped
    exact .cons here (ih others)

theorem Summary.ordinal_ofBlock {t : Tape} {k : Nat} {b : Block} {row : Summary}
    (made : ofBlock t k b = .ok row) : row.ordinal = k := by
  obtain ⟨header, -, made⟩ := bind_eq_ok_iff.1 made
  obtain rfl := Except.ok.inj made
  rfl

namespace Tape

variable {t : Tape} {x : Index} {rows : List Summary} {row : Summary}

/-- The rows of a listing are the summaries of the blocks, each in its place. -/
theorem summaries_listed (h : Indexed t x) (listed : t.summaries = .ok rows) :
    rows.length = x.count ∧
      ∀ k row, rows[k]? = some row → row.ordinal = k ∧ t.summaryAt x k = .ok row := by
  simp only [summaries, h.scan_sound.1] at listed
  obtain ⟨length, made⟩ := List.forall₂_iff_get.1 (forall₂_of_mapM listed)
  rw [List.length_zipIdx, Array.length_toList, ← h.count_eq] at length
  refine ⟨length.symm, fun k row there => ?_⟩
  obtain ⟨inside, rfl⟩ := List.getElem?_eq_some_iff.1 there
  have inside' : k < t.scan.blocks.size := by rwa [← h.count_eq, length]
  have here := made k (by simpa using inside') inside
  simp only [List.get_eq_getElem, List.getElem_zipIdx, Array.getElem_toList, Nat.zero_add] at here
  exact ⟨Summary.ordinal_ofBlock here,
    (summaryAt_eq h (Array.getElem?_eq_getElem inside')).trans here⟩

section Measured

variable (covered : t.image.Covered)
include covered

theorem ofBlock_measured (k : Nat) (b : Block) :
    Summary.ofBlock t.measured k b = Summary.ofBlock t k b := by
  rw [Summary.ofBlock, Summary.ofBlock, headerOf_measured covered]

/-- What has been left behind a tape is not listed. -/
theorem summaries_measured : t.measured.summaries = t.summaries := by
  simp only [summaries, scan_measured covered, ofBlock_measured covered]

theorem summaryAt_measured (k : Nat) : t.measured.summaryAt x k = t.summaryAt x k := by
  simp only [summaryAt, find_measured covered, ofBlock_measured covered]

end Measured

end Tape

namespace Deck

variable {s : Store} {d : Deck} {i : Inserted} {x : Index}

theorem summary_eq (inserted : d.tape = some i) (holds : i.Holds s x) (k : Nat) :
    (d.summary s k).2 = (i.tape s).summaryAt x k := by
  rw [Deck.summary, onTape_eq inserted holds]
  rfl

/-- Whatever has been done with a deck: the tape in it can be listed, with as many rows as there
are blocks. The row in a place is the summary of the block of that number, and no other number has
one. -/
theorem Reachable.listed (reachable : Reachable s d) (inserted : d.tape = some i) :
    ∃ rows : List Summary, (d.listing s).2 = .ok rows ∧ (d.countBlocks s).2 = .ok rows.length ∧
      ∀ k, (∀ row, rows[k]? = some row → row.ordinal = k) ∧
        (d.summary s k).2 =
          match rows[k]? with
          | some row => .ok row
          | none => .error (.noSuchBlock k rows.length) := by
  obtain ⟨x, holds⟩ := reachable.sound i inserted
  obtain ⟨rows, listed⟩ := holds.indexed.summaries
  obtain ⟨length, same⟩ := Tape.summaries_listed holds.indexed listed
  refine ⟨rows, ?_, ?_, fun k => ⟨fun row there => (same k row there).1, ?_⟩⟩
  · rw [listing_summaries inserted holds, ← Tape.summaries_measured holds.covered, listed]
  · rw [countBlocks_eq inserted holds, length]
  · rw [summary_eq inserted holds, ← Tape.summaryAt_measured holds.covered]
    cases there : rows[k]? with
    | some row => exact (same k row there).2
    | none =>
      rw [length]
      exact Tape.summaryAt_behind (length ▸ List.getElem?_eq_none_iff.1 there)

/-- A text, a header and a block that stops the tape, of which the header alone has a name. -/
theorem listed_header :
    let s := Session.oneImage #[48, 2, 72, 105, 16, 232, 3, 19, 0, 0, 3, 111, 108, 100, 32, 32, 32,
      32, 32, 32, 32, 1, 0, 0, 128, 0, 128, 105, 32, 0, 0]
    let i := Session.oneTape 31 3
    let d : Deck := { new .standard with tape := some i }
    Reachable s d ∧ d.tape = some i ∧ ∃ rows, (d.listing s).2 = .ok rows ∧
      (d.countBlocks s).2 = .ok rows.length ∧ rows[1]? = some ⟨1, "Standard", some "old", some 19⟩ ∧
      (d.summary s 3).2 = .error (.noSuchBlock 3 3) := by
  intro s i d
  have fresh : i.Fresh s "a.tzx" .tzx .standard :=
    ⟨rfl, rfl, by decide +kernel, rfl, by decide +kernel, by decide +kernel, rfl, rfl, rfl⟩
  have ran : Op.run s (new .standard) (.insert "a.tzx") = some (s, d) := by
    rw [Op.run, fresh.insert_eq (by decide)]
  have reachable : Reachable s d := .next _ (.new s .standard) ran
  obtain ⟨rows, listed, count, summaries⟩ := reachable.listed rfl
  have three : rows.length = 3 := by
    have counted : (d.countBlocks s).2 = .ok 3 := rfl
    exact Except.ok.inj (count.symm.trans counted)
  have header : (d.summary s 1).2 = .ok ⟨1, "Standard", some "old", some 19⟩ := by decide +kernel
  refine ⟨reachable, rfl, rows, listed, count, ?_, ?_⟩
  · have shown := (summaries 1).2
    rw [header] at shown
    cases row : rows[1]? with
    | some y =>
      rw [row] at shown
      rw [Except.ok.inj shown]
    | none =>
      rw [row] at shown
      cases shown
  · have shown := (summaries 3).2
    rwa [List.getElem?_eq_none (Nat.le_of_eq three), three] at shown

end Deck

end Cassette
