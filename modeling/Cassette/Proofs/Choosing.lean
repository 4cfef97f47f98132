import Mathlib.Algebra.Order.Ring.Canonical
import Mathlib.Algebra.Order.Ring.Nat
import Mathlib.Data.List.Dedup
import Mathlib.Data.List.Sort
import Cassette.Session
import Cassette.Proofs.Operating

/-! What the blocks named on a command line come to. Each number in the list marks a block or
unmarks it, so those are marked whose number occurs an odd number of times (`marked`); and where
none is marked, to remove means to remove the first block, and to move is a fault. Main statement:
`run_named`, which says what a command then does with the file, and that these are just the
blocks named if none is named an even number of times. -/

namespace Cassette

/-! ### Marks -/

namespace Selection

variable {s : Selection} {n k count : Nat} {ns : List Nat}

theorem mem_toggle : k ∈ s.toggle n ↔ (k ∈ s ↔ k ≠ n) := by
  rw [toggle]
  by_cases there : n ∈ s
  · rw [if_pos there, mem_erase]
    by_cases same : k = n
    · simp [same, there]
    · simp [same]
  · rw [if_neg there, mem_insert]
    by_cases same : k = n
    · simp [same, there]
    · simp [same]

/-- Only the numbers that occur an odd number of times change sides. -/
theorem mem_foldl_toggle : k ∈ ns.foldl toggle s ↔ (k ∈ s ↔ Even (ns.count k)) := by
  induction ns generalizing s with
  | nil => simp
  | cons n rest ih =>
    rw [List.foldl_cons, ih, mem_toggle, List.count_cons]
    by_cases same : n = k
    · simp only [same, BEq.rfl, ↓reduceIte, Nat.even_add_one, ne_eq, not_true_eq_false, iff_false]
      exact not_iff_comm.trans iff_comm
    · have other : ¬ k = n := fun h => same h.symm
      simp [same, other]

/-- The numbers in a selection are in order. -/
theorem ordinals_eq (below : ∀ k ∈ s, k < count) :
    s.ordinals = (List.range count).filter (· ∈ s) := by
  apply s.ascending.eq_of_mem_iff (List.pairwise_lt_range.filter _)
  intro k
  rw [List.mem_filter, List.mem_range, decide_eq_true_iff]
  exact ⟨fun member => ⟨below k member, member⟩, fun h => h.2⟩

end Selection

/-- The blocks that a list of block numbers leaves marked. Block numbers count from one. -/
def marked (count : Nat) (blocks : List Nat) : List Nat :=
  (List.range count).filter fun k => Odd (blocks.count (k + 1))

/-- The blocks that are removed: those left marked, or the first if there are none. -/
def gone (count : Nat) (blocks : List Nat) : List Nat :=
  if marked count blocks = [] then [0] else marked count blocks

section Marked

variable {count k : Nat} {blocks : List Nat}

theorem mem_marked : k ∈ marked count blocks ↔ k < count ∧ Odd (blocks.count (k + 1)) := by
  simp [marked]

theorem gone_ne_nil (count : Nat) (blocks : List Nat) : gone count blocks ≠ [] := by
  rw [gone]
  split
  · exact nofun
  · assumption

theorem lt_of_mem_gone (some : 0 < count) (member : k ∈ gone count blocks) : k < count := by
  rw [gone] at member
  split at member
  · rwa [List.mem_singleton.1 member]
  · exact (mem_marked.1 member).1

theorem count_map_pred (some : ∀ b ∈ blocks, 0 < b) (k : Nat) :
    (blocks.map (· - 1)).count k = blocks.count (k + 1) := by
  induction blocks with
  | nil => rfl
  | cons b rest ih =>
    have here := some b (by simp)
    have others := ih fun b hb => some b (by simp [hb])
    have same : b - 1 = k ↔ b = k + 1 := by omega
    simp only [List.map_cons, List.count_cons, others, beq_iff_eq, same]

theorem ordinals_toggled (inside : ∀ b ∈ blocks, 0 < b ∧ b ≤ count) :
    ((blocks.map (· - 1)).foldl Selection.toggle .empty).ordinals = marked count blocks := by
  have members (k : Nat) : k ∈ (blocks.map (· - 1)).foldl Selection.toggle .empty ↔
      Odd (blocks.count (k + 1)) := by
    have none : ¬ k ∈ Selection.empty := List.not_mem_nil
    rw [Selection.mem_foldl_toggle, count_map_pred fun b hb => (inside b hb).1]
    simp [none]
  have below : ∀ k ∈ (blocks.map (· - 1)).foldl Selection.toggle .empty, k < count := by
    intro k member
    have named : k + 1 ∈ blocks := List.count_pos_iff.1 (Odd.pos ((members k).1 member))
    exact (inside (k + 1) named).2
  rw [Selection.ordinals_eq below, marked]
  apply List.filter_congr
  intro k _
  simp only [members]

section Odd

variable (inside : ∀ b ∈ blocks, 0 < b ∧ b ≤ count) (odd : ∀ b ∈ blocks, Odd (blocks.count b))
include inside odd

/-- Blocks none of which is named an even number of times are all marked. -/
theorem mem_marked_of_odd : k ∈ marked count blocks ↔ k + 1 ∈ blocks := by
  rw [mem_marked]
  constructor
  · exact fun h => List.count_pos_iff.1 h.2.pos
  · exact fun named => ⟨(inside _ named).2, odd _ named⟩

theorem length_marked_of_odd : (marked count blocks).length = blocks.dedup.length := by
  -- Both name each of the blocks once.
  have same : ((marked count blocks).map (· + 1)).Perm blocks.dedup := by
    refine (List.perm_ext_iff_of_nodup ?_ blocks.nodup_dedup).2 fun b => ?_
    · exact (List.nodup_range.filter _).map (Nat.succ_injective)
    · rw [List.mem_map, List.mem_dedup]
      constructor
      · rintro ⟨k, member, rfl⟩
        exact (mem_marked_of_odd inside odd).1 member
      · intro named
        obtain ⟨k, rfl⟩ := Nat.exists_eq_add_one_of_ne_zero (Nat.ne_of_gt (inside b named).1)
        exact ⟨k, (mem_marked_of_odd inside odd).2 named, rfl⟩
  rw [← same.length_eq, List.length_map]

end Odd

end Marked

namespace Deck

variable {s : Store} {d : Deck} {i : Inserted} {x : Index} {blocks : List Nat} {before : Nat}

/-! ### Edits -/

section Edit

variable (inserted : d.tape = some i) (free : i.writeProtected = false) (holds : i.Holds s x)
include inserted free holds

theorem moveSelection_nothing (none : i.selection.isEmpty) (before : Nat) :
    d.moveSelection s before =
      (s, { d with tape := some { i with player := i.player.stop, index := some x } },
        .error .nothingSelected) := by
  have ordered : Order.move x.count i.selection before = .error .nothingSelected := by
    simp only [Order.move, Order.check, none, ↓reduceIte]
  refine (edit_eq inserted free holds _).trans ?_
  unfold rearrange
  simp only [ordered]

variable {draft : String} (room : s.draft i.path = .ok draft)
include room

theorem moveSelection_eq (some : i.selection.isEmpty = false)
    (inside : ∀ k ∈ i.selection, k < x.count) (there : before ≤ x.count) :
    let others := Order.unselected x.count i.selection
    ∃ s' i' y, d.moveSelection s before = (s', { d with tape := .some i' }, .ok ()) ∧
      Inserted.Rearranged d.settings s i (others.filter (· < before) ++ i.selection.ordinals ++
        others.filter (before ≤ ·)) s' i' y := by
  intro others
  let order := others.filter (· < before) ++ i.selection.ordinals ++ others.filter (before ≤ ·)
  have ordered : Order.move x.count i.selection before = .ok order := by
    have checked := Order.check_eq_ok_iff.2 ⟨some, inside⟩
    simp only [Order.move, checked, if_neg (Nat.not_lt.2 there)]
    rfl
  obtain ⟨s', i', y, done, rearranged⟩ :=
    (stopped_holds holds).rearranged (Order.move_inside ordered) room d.settings
  refine ⟨s', i', y, ?_, rearranged.of_kept⟩
  refine (edit_eq inserted free holds _).trans ?_
  simp only [ordered, done]

/-- The marked blocks are removed, or the one under the cursor if none is marked. -/
theorem removeSelection_eq {chosen : Selection}
    (either : chosen = if i.selection.isEmpty then .ofList [i.player.stop.ordinal] else i.selection)
    (some : chosen.isEmpty = false) (inside : ∀ k ∈ chosen, k < x.count) :
    ∃ s' i' y, d.removeSelection s = (s', { d with tape := .some i' }, .ok chosen.size) ∧
      Inserted.Rearranged d.settings s i (Order.unselected x.count chosen) s' i' y := by
  have ordered : Order.remove x.count chosen = .ok (Order.unselected x.count chosen) := by
    have checked := Order.check_eq_ok_iff.2 ⟨some, inside⟩
    simp only [Order.remove, checked]
  obtain ⟨s', i', y, done, rearranged⟩ :=
    (stopped_holds holds).rearranged (Order.remove_inside ordered) room d.settings
  refine ⟨s', i', y, ?_, rearranged.of_kept⟩
  refine (edit_eq inserted free holds _).trans ?_
  simp only [← either, ordered, done]
  rfl

end Edit

end Deck

namespace Session

open Deck

variable {s s' : Store} {d d' : Deck} {i : Inserted} {x : Index} {block : Nat} {blocks : List Nat}
  {path : String} {settings : Settings}

/-! ### Commands -/

section Steps

variable {α β : Type} {step : Step α} {next : α → Step β} {st st' : State} {a : α}

theorem run_bind (ran : step.run st = (.ok a, st')) :
    (step >>= next).run st = (next a).run st' := by
  show (ExceptT.bindCont next) (step.run st).1 (step.run st).2 = (next a).run st'
  rw [ran]
  rfl

theorem run_bind_error {failure : Failure} (ran : step.run st = (.error failure, st')) :
    (step >>= next).run st = (.error failure, st') := by
  show (ExceptT.bindCont next) (step.run st).1 (step.run st).2 = (.error failure, st')
  rw [ran]
  rfl

theorem run_discard (ran : step.run st = (.ok a, st')) :
    (discard step).run st = (.ok (), st') := by
  show (Function.const α () <$> step).run st = (.ok (), st')
  rw [ExceptT.run_map]
  show (Except.map _ (step.run st).1, (step.run st).2) = (.ok (), st')
  rw [ran]
  rfl

theorem onDeck_run {f : Deck → Store → Deck × Except Fault α} (done : f d s = (d', .ok a)) :
    (onDeck f).run ⟨s, d⟩ = (.ok a, ⟨s, d'⟩) := by
  show ((f d s).2.mapError Failure.fault, State.mk s (f d s).1) = (.ok a, ⟨s, d'⟩)
  rw [done]
  rfl

theorem onFiles_run {f : Deck → Store → Store × Deck × Except Fault α} {r : Except Fault α}
    (done : f d s = (s', d', r)) : (onFiles f).run ⟨s, d⟩ = (r.mapError .fault, ⟨s', d'⟩) := by
  show ((f d s).2.2.mapError Failure.fault, State.mk (f d s).1 (f d s).2.1) = _
  rw [done]

end Steps

theorem insert_run (inserted : d.insert s path = ({ d with tape := some i }, .ok ())) :
    (insert path).run ⟨s, d⟩ = (.ok (), ⟨s, { d with tape := some i }⟩) := by
  show ((d.insert s path).2.mapError (Failure.insertion path),
    State.mk s (d.insert s path).1) = _
  rw [inserted]
  rfl

theorem toggle_run (inserted : d.tape = some i) (index : i.index = some x)
    (inside : 0 < block ∧ block ≤ x.count) :
    (toggle block).run ⟨s, d⟩ = (.ok (), ⟨s, { d with
      tape := some { i with selection := i.selection.toggle (block - 1) } }⟩) := by
  have number : ordinal block = .ok (block - 1) := if_neg (Nat.ne_of_gt inside.1)
  have lifted : (liftM (ordinal block) : Step Nat).run ⟨s, d⟩ = (.ok (block - 1), ⟨s, d⟩) := by
    rw [number]
    rfl
  have there : ¬ x.count ≤ block - 1 := by omega
  have indexed : i.indexed s = .ok (i, x) := by
    simp only [Inserted.indexed, index]
  have marked : d.toggle s (block - 1) =
      ({ d with tape := some { i with selection := i.selection.toggle (block - 1) } },
        .ok (decide (block - 1 ∈ i.selection.toggle (block - 1)))) := by
    simp only [Deck.toggle, onTape, inserted, indexed, if_neg there]
  exact (run_bind lifted).trans (run_discard (onDeck_run marked))

theorem toggles_run (inserted : d.tape = some i) (index : i.index = some x)
    (inside : ∀ b ∈ blocks, 0 < b ∧ b ≤ x.count) :
    (blocks.forM toggle).run ⟨s, d⟩ = (.ok (), ⟨s, { d with
      tape := some { i with selection := (blocks.map (· - 1)).foldl .toggle i.selection } }⟩) := by
  induction blocks generalizing d i with
  | nil =>
    obtain ⟨⟩ := d
    obtain rfl : _ = some i := inserted
    rfl
  | cons block rest ih =>
    have first := toggle_run (s := s) inserted index (inside block (by simp))
    have others := ih (d := { d with
      tape := some { i with selection := i.selection.toggle (block - 1) } }) rfl index
      fun b hb => inside b (by simp [hb])
    exact (run_bind first).trans others

theorem contents_twoBlocks {order : List Nat} {s' : Store} {i' : Inserted} {y : Index}
    {written : Bytes}
    (rearranged : Inserted.Rearranged .standard twoBlocks twoBlocksTape order s' i' y)
    (same : (twoBlocksTape.tape twoBlocks).measured.extents order = written) :
    s'.resolve "a.tap" = .ok 1 ∧ s'.contents 1 = written := by
  have named := (Inserted.tape_opened rearranged.opened).1
  have contents := rearranged.contents
  rw [rearranged.object] at named contents
  rw [same] at contents
  exact ⟨named, contents.trans Array.empty_append⟩

section Named

variable {config : Option String} {draft : String} {before : Nat}
  (configured : settingsOf s config = .ok settings)
  (inserted :
    (Deck.new settings).insert s path = ({ Deck.new settings with tape := some i }, .ok ()))
  (index : i.index = some x) (free : i.writeProtected = false) (room : s.draft path = .ok draft)
  (inside : ∀ b ∈ blocks, 0 < b ∧ b ≤ x.count)
include inserted index inside

/-- Before an edit a tape is inserted, and the blocks that a list leaves marked are marked. -/
theorem run_marking {α : Type} (next : Step α) :
    ∃ j, (do insert path; blocks.forM toggle; next).run ⟨s, .new settings⟩ =
        next.run ⟨s, { Deck.new settings with tape := .some j }⟩ ∧
      j.selection.ordinals = marked x.count blocks ∧ j.player.stop.ordinal = 0 ∧
      Inserted.Holds s j x ∧ j.writeProtected = i.writeProtected ∧ j.path = path ∧
      ∀ {order s' i' y}, Inserted.Rearranged settings s j order s' i' y →
        Inserted.Rearranged settings s i order s' i' y := by
  obtain ⟨y, holds, there, named, empty, player⟩ := holds_inserted inserted
  obtain rfl : y = x := Option.some.inj (there.symm.trans index)
  have first := insert_run inserted
  have second := toggles_run (s := s) (d := { Deck.new settings with tape := .some i }) rfl
    index inside
  refine ⟨_, (run_bind first).trans (run_bind second), ?_, ?_, ?_, rfl, named, .of_kept⟩
  · rw [empty]
    exact ordinals_toggled inside
  · rw [player]
    rfl
  · exact holds.kept i.player _ holds.cached

include configured free room

theorem run_remove (some : blocks ≠ []) (fuel : Nat) :
    ∃ s' i' y, run fuel ⟨config, .remove path blocks⟩ s =
        .some ⟨s', 0, s!"Removed {(gone x.count blocks).length} blocks\n", .some ""⟩ ∧
      Inserted.Rearranged settings s i
        ((List.range x.count).filter (· ∉ gone x.count blocks)) s' i' y := by
  obtain ⟨j, ran, ordinals, cursor, holds, same, named, kept⟩ := run_marking inserted index inside
    (do let removed ← onFiles Deck.removeSelection; return s!"Removed {removed} blocks\n")
  -- To the deck an empty selection means the block under the cursor, here the first.
  let selection : Selection :=
    if j.selection.isEmpty then .ofList [j.player.stop.ordinal] else j.selection
  have numbers : selection.ordinals = gone x.count blocks := by
    simp only [selection, gone, ← ordinals, Selection.isEmpty, List.isEmpty_iff]
    split
    · rw [cursor]
      rfl
    · rfl
  have first : 0 < x.count := by
    obtain ⟨b, member⟩ := List.exists_mem_of_ne_nil blocks some
    have := inside b member
    omega
  have below : ∀ k ∈ selection, k < x.count := by
    intro k member
    have member : k ∈ gone x.count blocks := numbers ▸ member
    exact lt_of_mem_gone first member
  have filled : selection.isEmpty = false := by
    rw [Selection.isEmpty, numbers, List.isEmpty_eq_false_iff]
    exact gone_ne_nil x.count blocks
  obtain ⟨s', i', y, removed, rearranged⟩ :=
    removeSelection_eq (d := { Deck.new settings with tape := .some j }) rfl (same.trans free)
      holds (named ▸ room) rfl filled below
  have done : (remove path blocks).run ⟨s, .new settings⟩ = (.ok _, ⟨s', _⟩) :=
    ran.trans (run_bind (onFiles_run removed))
  have others : Order.unselected x.count selection =
      (List.range x.count).filter (· ∉ gone x.count blocks) := by
    rw [← numbers]
    rfl
  refine ⟨s', i', y, ?_, kept (others ▸ rearranged)⟩
  simp only [run, configured, perform, done, Option.map_some]
  rw [← numbers]
  rfl

theorem run_move (there : 0 < before ∧ before ≤ x.count + 1) (fuel : Nat) :
    let chosen := marked x.count blocks
    let others := (List.range x.count).filter (· ∉ chosen)
    (chosen = [] → run fuel ⟨config, .move path before blocks⟩ s =
      .some ⟨s, 1, "", .some (Failure.fault .nothingSelected).message⟩) ∧
    (chosen ≠ [] → ∃ s' i' y, run fuel ⟨config, .move path before blocks⟩ s =
        .some ⟨s', 0, "", .some ""⟩ ∧
      Inserted.Rearranged settings s i (others.filter (· < before - 1) ++ chosen ++
        others.filter (before - 1 ≤ ·)) s' i' y) := by
  intro chosen others
  obtain ⟨j, ran, ordinals, -, holds, same, named, kept⟩ := run_marking inserted index inside
    (do let n ← ordinal before; onFiles fun d s => d.moveSelection s n; return "")
  have number : ordinal before = .ok (before - 1) := if_neg (Nat.ne_of_gt there.1)
  have lifted (st : State) :
      (liftM (ordinal before) : Step Nat).run st = (.ok (before - 1), st) := by
    rw [number]
    rfl
  have moved {s' : Store} {d' : Deck} {r : Except Fault Unit}
      (edited : moveSelection { Deck.new settings with tape := .some j } s (before - 1) =
        (s', d', r)) :
      (move path before blocks).run ⟨s, .new settings⟩ =
        ((r.mapError Failure.fault).map fun _ => "", ⟨s', d'⟩) := by
    have step := onFiles_run (f := fun d s => d.moveSelection s (before - 1)) edited
    refine ran.trans ((run_bind (lifted _)).trans ?_)
    cases r with
    | ok => exact run_bind step
    | error fault => exact run_bind_error step
  refine ⟨fun none => ?_, fun some' => ?_⟩
  · have edited := moveSelection_nothing (d := { Deck.new settings with tape := .some j }) rfl
      (same.trans free) holds (List.isEmpty_iff.2 (ordinals.trans none)) (before - 1)
    simp only [run, configured, perform, moved edited, Option.map_some]
    rfl
  · have filled : j.selection.isEmpty = false := by
      rw [Selection.isEmpty, ordinals, List.isEmpty_eq_false_iff]
      exact some'
    have below : ∀ k ∈ j.selection, k < x.count := by
      intro k member
      have member : k ∈ marked x.count blocks := ordinals ▸ member
      exact (mem_marked.1 member).1
    obtain ⟨s', i', y, edited, rearranged⟩ :=
      moveSelection_eq (d := { Deck.new settings with tape := .some j }) rfl (same.trans free)
        holds (named ▸ room) filled below (show before - 1 ≤ x.count by omega)
    have rest : Order.unselected x.count j.selection = others := by
      simp only [others, chosen, ← ordinals]
      rfl
    rw [ordinals, rest] at rearranged
    refine ⟨s', i', y, ?_, kept rearranged⟩
    simp only [run, configured, perform, moved edited, Option.map_some]
    rfl

/-- To remove the blocks of a list is to remove those that it leaves marked, and only the first if
it leaves none; to move them is to move those that it leaves marked, and a fault if it leaves
none. Just the blocks named are left marked, if none is named an even number of times. -/
theorem run_named (some : blocks ≠ []) (there : 0 < before ∧ before ≤ x.count + 1) (fuel : Nat) :
    let chosen := marked x.count blocks
    let gone := gone x.count blocks
    let others := (List.range x.count).filter (· ∉ chosen)
    (∃ s' i' y, run fuel ⟨config, .remove path blocks⟩ s =
        .some ⟨s', 0, s!"Removed {gone.length} blocks\n", .some ""⟩ ∧
      Inserted.Rearranged settings s i ((List.range x.count).filter (· ∉ gone)) s' i' y) ∧
    (chosen = [] → run fuel ⟨config, .move path before blocks⟩ s =
      .some ⟨s, 1, "", .some (Failure.fault .nothingSelected).message⟩) ∧
    (chosen ≠ [] → ∃ s' i' y, run fuel ⟨config, .move path before blocks⟩ s =
        .some ⟨s', 0, "", .some ""⟩ ∧
      Inserted.Rearranged settings s i (others.filter (· < before - 1) ++ chosen ++
        others.filter (before - 1 ≤ ·)) s' i' y) ∧
    ((∀ b ∈ blocks, Odd (blocks.count b)) → chosen ≠ [] ∧ gone = chosen ∧
      (∀ k, k ∈ chosen ↔ k + 1 ∈ blocks) ∧ chosen.length = blocks.dedup.length) := by
  intro chosen gone others
  obtain ⟨nothing, moved⟩ := run_move configured inserted index free room inside there fuel
  refine ⟨run_remove configured inserted index free room inside some fuel, nothing, moved, ?_⟩
  intro odd
  have filled : chosen ≠ [] := by
    obtain ⟨b, member⟩ := List.exists_mem_of_ne_nil blocks some
    obtain ⟨k, rfl⟩ := Nat.exists_eq_add_one_of_ne_zero (Nat.ne_of_gt (inside b member).1)
    exact List.ne_nil_of_mem ((mem_marked_of_odd inside odd).2 member)
  exact ⟨filled, if_neg filled, fun k => mem_marked_of_odd inside odd,
    length_marked_of_odd inside odd⟩

end Named

/-- A block that is named three times is removed, or moved to the front. -/
theorem run_named_thrice :
    (∃ s', run 0 ⟨none, .remove "a.tap" [2, 2, 2]⟩ twoBlocks =
        some ⟨s', 0, "Removed 1 blocks\n", some ""⟩ ∧ s'.resolve "a.tap" = .ok 1 ∧
        s'.contents 1 = #[1, 0, 0xA1]) ∧
      ∃ s', run 0 ⟨none, .move "a.tap" 1 [2, 2, 2]⟩ twoBlocks = some ⟨s', 0, "", some ""⟩ ∧
        s'.resolve "a.tap" = .ok 1 ∧ s'.contents 1 = #[1, 0, 0xB2, 1, 0, 0xA1] := by
  have room : twoBlocks.draft "a.tap" = .ok "/./.tape-tool" := by decide +kernel
  have inside : ∀ b ∈ [2, 2, 2], 0 < b ∧ b ≤ 2 := by decide
  have there : 0 < 1 ∧ 1 ≤ 2 + 1 := by decide
  have configured : settingsOf twoBlocks none = .ok .standard := rfl
  obtain ⟨⟨s', i', y, removed, kept⟩, -, moved, -⟩ :=
    run_named configured insert_twoBlocks rfl rfl room inside (by decide) there 0
  obtain ⟨s'', i'', y', moved, placed⟩ := moved (by decide)
  refine ⟨⟨s', removed, ?_⟩, s'', moved, ?_⟩
  · exact contents_twoBlocks kept (by decide +kernel)
  · exact contents_twoBlocks placed (by decide +kernel)

/-- A block that is named twice stays, and the first goes in its place. -/
theorem answer_twice :
    ∃ s', answer 0 ["remove", "a.tap", "2", "2"] twoBlocks =
        some ⟨s', 0, "Removed 1 blocks\n", some ""⟩ ∧ s'.resolve "a.tap" = .ok 1 ∧
        s'.contents 1 = #[1, 0, 0xB2] := by
  have room : twoBlocks.draft "a.tap" = .ok "/./.tape-tool" := by decide +kernel
  have inside : ∀ b ∈ [2, 2], 0 < b ∧ b ≤ 2 := by decide
  have configured : settingsOf twoBlocks none = .ok .standard := rfl
  have asked : Request.ofArguments ["remove", "a.tap", "2", "2"] =
      .run ⟨none, .remove "a.tap" [2, 2]⟩ := by decide +kernel
  obtain ⟨s', i', y, removed, kept⟩ :=
    run_remove configured insert_twoBlocks rfl rfl room inside (by decide) 0
  refine ⟨s', ?_, contents_twoBlocks kept (by decide +kernel)⟩
  rw [answer, asked]
  exact removed

end Session

end Cassette
