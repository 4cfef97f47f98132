import Mathlib.Data.List.Sort
import Cassette.Proofs.Choosing

/-! What moving and removing blocks should come to, said without the way the order is put
together. Blocks that move come out as one run, around which the others keep their places
(`Moved`), and blocks that are taken out leave the others as they were (`Left`). There is just
one such order of the blocks that are there (`moved_iff`). Main statement: `move_remove_iff`, an
order is given just when it is asked for by blocks that are there, and it is that one. -/

namespace Cassette.Order

variable {count before : Nat} {selection : Selection} {order : List Nat} {fault : Fault}

/-- Something is selected, and all of it is there. -/
structure Choosable (count : Nat) (selection : Selection) : Prop where
  some : ∃ k, k ∈ selection
  inside : ∀ k ∈ selection, k < count

/-- What is wrong with a selection: it is empty, or else the first of its blocks that are not
there is to blame. -/
inductive Missing (count : Nat) (selection : Selection) : Fault → Prop
  | nothing (none : ∀ k, k ∉ selection) : Missing count selection .nothingSelected
  | behind {k : Nat} (chosen : k ∈ selection) (behind : count ≤ k)
      (first : ∀ j ∈ selection, count ≤ j → k ≤ j) :
      Missing count selection (.noSuchBlock k count)

/-- All blocks in a new order: the selected ones one behind the other, the others as they were
among themselves, and those in front of a block in front of the run, the rest behind it. -/
structure Moved (count : Nat) (selection : Selection) (before : Nat) (order : List Nat) :
    Prop where
  perm : order.Perm (List.range count)
  together : selection.ordinals <:+: order
  others : (order.filter (· ∉ selection)).Pairwise (· < ·)
  front : ∀ k ∈ order, k ∉ selection → k < before → ∀ m ∈ selection, [k, m].Sublist order
  back : ∀ k ∈ order, k ∉ selection → before ≤ k → ∀ m ∈ selection, [m, k].Sublist order

/-- The blocks that are not selected, in order. -/
structure Left (count : Nat) (selection : Selection) (order : List Nat) : Prop where
  ascending : order.Pairwise (· < ·)
  mem_iff : ∀ k, k ∈ order ↔ k < count ∧ k ∉ selection

/-! ### Selections -/

theorem isEmpty_eq_false_iff : selection.isEmpty = false ↔ ∃ k, k ∈ selection := by
  rw [Selection.isEmpty, List.isEmpty_eq_false_iff_exists_mem]
  rfl

theorem choosable_iff : check count selection = .ok () ↔ Choosable count selection := by
  rw [check_eq_ok_iff, isEmpty_eq_false_iff]
  exact ⟨fun h => ⟨h.1, h.2⟩, fun h => ⟨h.1, h.2⟩⟩

theorem Missing.unique {fault' : Fault} (missing : Missing count selection fault)
    (missing' : Missing count selection fault') : fault = fault' := by
  cases missing with
  | nothing none =>
    cases missing' with
    | nothing => rfl
    | behind chosen => exact absurd chosen (none _)
  | behind chosen behind first =>
    cases missing' with
    | nothing none => exact absurd chosen (none _)
    | behind chosen' behind' first' =>
      rw [Nat.le_antisymm (first _ chosen' behind') (first' _ chosen behind)]

/-- A selection that is refused is so for what is wrong with it. -/
theorem missing_of_check (refused : check count selection = .error fault) :
    Missing count selection fault := by
  rw [check] at refused
  split at refused
  · next empty =>
    obtain rfl := Except.error.inj refused
    refine .nothing fun k member => ?_
    exact Bool.false_ne_true ((isEmpty_eq_false_iff.2 ⟨k, member⟩).symm.trans empty)
  · split at refused
    · next k found =>
      obtain rfl := Except.error.inj refused
      obtain ⟨behind, front, back, split, passed⟩ := List.find?_eq_some_iff_append.1 found
      have ascending := selection.ascending
      rw [split, List.pairwise_append, List.pairwise_cons] at ascending
      refine .behind (List.mem_of_find?_eq_some found) (by simpa using behind)
        fun j member past => ?_
      have placed : j ∈ front ++ k :: back := split ▸ member
      rcases List.mem_append.1 placed with earlier | here
      · have := passed j earlier
        simp only [past, decide_true, Bool.not_true, Bool.false_eq_true] at this
      · rcases List.mem_cons.1 here with rfl | later
        · exact Nat.le_refl j
        · exact Nat.le_of_lt (ascending.2.1.1 j later)
    · cases refused

theorem check_eq_error_iff :
    check count selection = .error fault ↔ Missing count selection fault := by
  refine ⟨missing_of_check, fun missing => ?_⟩
  cases checked : check count selection with
  | error fault' => rw [missing.unique (missing_of_check checked)]
  | ok =>
    -- What is there and not empty is not refused.
    obtain ⟨some, inside⟩ := choosable_iff.1 checked
    cases missing with
    | nothing none => exact absurd some (not_exists.2 none)
    | behind chosen behind => exact absurd (inside _ chosen) (Nat.not_lt.2 behind)

/-! ### The order of a removal -/

theorem left_unselected : Left count selection (unselected count selection) :=
  ⟨List.pairwise_lt_range.filter _, fun _ => mem_unselected⟩

theorem left_iff : Left count selection order ↔ order = unselected count selection := by
  refine ⟨fun left => ?_, fun same => same ▸ left_unselected⟩
  apply left.ascending.eq_of_mem_iff left_unselected.ascending
  intro k
  rw [left.mem_iff, mem_unselected]

/-! ### The order of a move -/

/-- The selected blocks between those of the others that are in front of a place and the rest. -/
def movedOrder (count : Nat) (selection : Selection) (before : Nat) : List Nat :=
  (unselected count selection).filter (· < before) ++ selection.ordinals ++
    (unselected count selection).filter (before ≤ ·)

theorem perm_movedOrder (inside : ∀ k ∈ selection, k < count) :
    (movedOrder count selection before).Perm (List.range count) := by
  have parts := List.filter_append_perm (· < before) (unselected count selection)
  simp only [← decide_not, Nat.not_lt] at parts
  have all := List.filter_append_perm (· ∈ selection) (List.range count)
  simp only [← decide_not, ← Selection.ordinals_eq inside] at all
  calc movedOrder count selection before
      _ = _ ++ (selection.ordinals ++ _) := List.append_assoc _ _ _
      _ |>.Perm (selection.ordinals ++ _ ++ _) := by
        rw [List.append_assoc]
        exact List.perm_append_comm_assoc _ _ _
      _ |>.Perm (selection.ordinals ++ unselected count selection) := by
        rw [List.append_assoc]
        exact parts.append_left _
      _ |>.Perm (List.range count) := all

/-- In a list without repetitions one of two things comes first. -/
theorem not_sublist_swap {l : List Nat} {a b : Nat} (nodup : l.Nodup) (first : [a, b].Sublist l) :
    ¬ [b, a].Sublist l := by
  induction l with
  | nil => simp at first
  | cons c l ih =>
    obtain ⟨fresh, nodup⟩ := List.nodup_cons.1 nodup
    intro second
    cases first with
    | cons _ first =>
      cases second with
      | cons _ second => exact ih nodup first second
      | cons_cons _ _ => exact fresh (first.subset (by simp))
    | cons_cons _ first =>
      cases second with
      | cons _ second => exact fresh (second.subset (by simp))
      | cons_cons _ _ => exact fresh (first.subset (by simp))

theorem filter_ordinals (selection : Selection) :
    selection.ordinals.filter (· ∉ selection) = [] := by
  apply List.filter_eq_nil_iff.2
  intro k member free
  exact of_decide_eq_true free member

theorem mem_front {k : Nat} : k ∈ (unselected count selection).filter (· < before) ↔
    (k < count ∧ k ∉ selection) ∧ k < before := by
  simp only [List.mem_filter, mem_unselected, decide_eq_true_eq]

theorem mem_back {k : Nat} : k ∈ (unselected count selection).filter (before ≤ ·) ↔
    (k < count ∧ k ∉ selection) ∧ before ≤ k := by
  simp only [List.mem_filter, mem_unselected, decide_eq_true_eq]

theorem moved_movedOrder (inside : ∀ k ∈ selection, k < count) :
    Moved count selection before (movedOrder count selection before) where
  perm := perm_movedOrder inside
  together := ⟨_, _, rfl⟩
  others := by
    have ascending : (unselected count selection).Pairwise (· < ·) := left_unselected.ascending
    rw [movedOrder, List.filter_append, List.filter_append, filter_ordinals, List.append_nil,
      List.pairwise_append]
    refine ⟨(ascending.filter _).filter _, (ascending.filter _).filter _, fun k front m back => ?_⟩
    have := (mem_front.1 (List.mem_filter.1 front).1).2
    have := (mem_back.1 (List.mem_filter.1 back).1).2
    omega
  front k member free lt m chosen := by
    have there := List.mem_range.1 ((perm_movedOrder inside).subset member)
    have front : [k].Sublist _ := List.singleton_sublist.2 (mem_front.2 ⟨⟨there, free⟩, lt⟩)
    have run : [m].Sublist selection.ordinals := List.singleton_sublist.2 chosen
    exact (front.append run).trans (List.sublist_append_left _ _)
  back k member free le m chosen := by
    have there := List.mem_range.1 ((perm_movedOrder inside).subset member)
    have back : [k].Sublist _ := List.singleton_sublist.2 (mem_back.2 ⟨⟨there, free⟩, le⟩)
    have run : [m].Sublist selection.ordinals := List.singleton_sublist.2 chosen
    exact (run.trans (List.sublist_append_right _ _)).append back

/-- Blocks can be moved to a place in just one way. -/
theorem moved_iff (choosable : Choosable count selection) :
    Moved count selection before order ↔ order = movedOrder count selection before := by
  refine ⟨fun h => ?_, fun same => same ▸ moved_movedOrder choosable.inside⟩
  obtain ⟨front, back, split⟩ := h.together
  obtain ⟨m, chosen⟩ := choosable.some
  have nodup : order.Nodup := h.perm.nodup_iff.2 List.nodup_range
  have parts := nodup
  rw [← split, List.nodup_append, List.nodup_append] at parts
  obtain ⟨⟨-, -, apart⟩, -, apart'⟩ := parts
  have free : ∀ k ∈ front, k ∉ selection := fun k here chosen => apart k here k chosen rfl
  have free' : ∀ k ∈ back, k ∉ selection := fun k here chosen =>
    apart' k (List.mem_append_right _ chosen) k here rfl
  -- Blocks on the wrong side of the run would be on both sides of a selected one.
  have below : ∀ k ∈ front, k < before := by
    intro k here
    by_contra le
    have after := h.back k (split ▸ by simp [here]) (free k here) (Nat.not_lt.1 le) m chosen
    have run : [m].Sublist selection.ordinals := List.singleton_sublist.2 chosen
    have first := ((List.singleton_sublist.2 here).append run).trans
      (List.sublist_append_left _ back)
    exact not_sublist_swap nodup after (split ▸ first)
  have above : ∀ k ∈ back, before ≤ k := by
    intro k here
    by_contra lt
    have first := h.front k (split ▸ by simp [here]) (free' k here) (Nat.not_le.1 lt) m chosen
    have run : [m].Sublist (front ++ selection.ordinals) :=
      List.singleton_sublist.2 (List.mem_append_right _ chosen)
    exact not_sublist_swap nodup first (split ▸ run.append (List.singleton_sublist.2 here))
  have others : front ++ back = unselected count selection := by
    have kept : order.filter (· ∉ selection) = front ++ back := by
      rw [← split, List.filter_append, List.filter_append, filter_ordinals, List.append_nil,
        List.filter_eq_self.2 (by simpa using free), List.filter_eq_self.2 (by simpa using free')]
    rw [← kept]
    apply left_iff.1 ⟨h.others, fun k => ?_⟩
    rw [List.mem_filter, h.perm.mem_iff, List.mem_range, decide_eq_true_iff]
  have front_eq : (front ++ back).filter (· < before) = front := by
    rw [List.filter_append, List.filter_eq_self.2 (by simpa using below),
      List.filter_eq_nil_iff.2 (by simpa using above), List.append_nil]
  have back_eq : (front ++ back).filter (before ≤ ·) = back := by
    rw [List.filter_append, List.filter_eq_nil_iff.2 (by simpa using below),
      List.filter_eq_self.2 (by simpa using above), List.nil_append]
  rw [movedOrder, ← others, front_eq, back_eq, split]

theorem move_eq : move count selection before =
    match check count selection with
    | .error fault => .error fault
    | .ok () => if count < before then .error (.noSuchBlock before count)
      else .ok (movedOrder count selection before) := rfl

/-- Blocks are moved just if some are selected, all of these are there, and there is a place to
move them to; then the order is the only one in which they are moved there. They are removed just
if some are selected and all of these are there, and the order is that of the others. Everything
else is a fault: that of the selection, or else that of the place. -/
theorem move_remove_iff (count : Nat) (selection : Selection) (before : Nat) :
    ((∃ order, move count selection before = .ok order) ↔
      Choosable count selection ∧ before ≤ count) ∧
    (∀ order, move count selection before = .ok order ↔
      (Choosable count selection ∧ before ≤ count) ∧ Moved count selection before order) ∧
    (∀ fault, move count selection before = .error fault ↔ Missing count selection fault ∨
      Choosable count selection ∧ count < before ∧ fault = .noSuchBlock before count) ∧
    ((∃ order, remove count selection = .ok order) ↔ Choosable count selection) ∧
    (∀ order, remove count selection = .ok order ↔
      Choosable count selection ∧ Left count selection order) ∧
    ∀ fault, remove count selection = .error fault ↔ Missing count selection fault := by
  rw [move_eq, remove]
  cases checked : check count selection with
  | error found =>
    have missing := check_eq_error_iff.1 checked
    have none : ¬ Choosable count selection := by
      intro choosable
      cases checked.symm.trans (choosable_iff.2 choosable)
    have only (fault : Fault) : found = fault ↔ Missing count selection fault :=
      ⟨fun same => same ▸ missing, missing.unique⟩
    simp [none, only]
  | ok =>
    have choosable := choosable_iff.1 checked
    have fine (fault : Fault) : ¬ Missing count selection fault := by
      intro missing
      cases checked.symm.trans (check_eq_error_iff.2 missing)
    by_cases past : count < before
    · have none : ¬ before ≤ count := Nat.not_le.2 past
      simp [choosable, fine, past, none, left_iff, eq_comm]
    · have there : before ≤ count := Nat.not_lt.1 past
      simp [choosable, fine, past, there, left_iff, moved_iff choosable, eq_comm]

/-- A place between the blocks that are moved is one behind those in front of it. -/
example : move 5 (.ofList [3, 1]) 2 = .ok [0, 1, 3, 2, 4] := by decide

end Cassette.Order
