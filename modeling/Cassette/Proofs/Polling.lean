import Mathlib.Algebra.Order.BigOperators.Group.List
import Mathlib.Algebra.Order.Group.Nat
import Mathlib.Data.List.Induction
import Mathlib.Data.List.ReduceOption
import Cassette.Proofs.Tolerance

/-! When a recorder is asked. To ask it may end a block, but only one that has been followed by
silence, and such a block the next edge would end: asked or not, the recorder then has nothing left
of it (`Trails.edge`). Between the question and that edge the two differ by just this block
(`trails_calls`, by induction on the calls). Main statement: `only_sooner`. -/

namespace Cassette.Recorder

variable {r p q : Recorder} {now tick : Nat} {swung : Bool} {before after : List Bytes}
variable {calls : List Call}

def Call.tick? : Call → Option Nat
  | .edge _ tick | .quiet tick => some tick
  | .finish => none

def Call.asks : Call → Bool
  | .quiet _ => true
  | .edge .. | .finish => false

def told (calls : List Call) : List Call := calls.filter fun call => !call.asks

def blocks (r : Recorder) (calls : List Call) : List Bytes := (r.calls calls).1.reduceOption

/-- A recorder that has been asked, beside one that has not and was told the same: it is no
different, or it has ended in a silence the block that the other one still holds. -/
inductive Trails (now : Nat) (p : Recorder) (before : List Bytes) : Recorder → List Bytes → Prop
  | even : Trails now p before p before
  | ended {last : Nat} (edge : p.edge? = some last) (silent : p.silence < now - last) :
      Trails now p before p.endBlock.2 (before ++ p.endBlock.1.toList)

/-! ### Calls -/

theorem endBlock_endBlock (r : Recorder) : r.endBlock.2.endBlock = (none, r.endBlock.2) := rfl

theorem quiet_silent {last : Nat} (edge : r.edge? = some last)
    (silent : r.silence < tick - last) : r.quiet tick = r.endBlock := by
  simp only [quiet, edge, if_pos silent]

theorem Trails.later (trails : p.Trails now before q after) (le : now ≤ tick) :
    p.Trails tick before q after := by
  cases trails with
  | even => exact .even
  | ended edge silent => exact .ended edge (by omega)

/-- Asking brings nothing but the block that the other recorder still holds. -/
theorem Trails.quiet (trails : p.Trails now before q after) (le : now ≤ tick) :
    p.Trails tick before (q.quiet tick).2 (after ++ (q.quiet tick).1.toList) := by
  cases trails with
  | even =>
    cases edge : p.edge? with
    | none =>
      simp only [Recorder.quiet, edge, Option.toList_none, List.append_nil]
      exact .even
    | some last =>
      by_cases silent : p.silence < tick - last
      · rw [quiet_silent edge silent]
        exact .ended edge silent
      · simp only [Recorder.quiet, edge, if_neg silent, Option.toList_none, List.append_nil]
        exact .even
  | @ended last edge silent =>
    have still : p.silence < tick - last := by omega
    have nothing : p.endBlock.2.quiet tick = (none, p.endBlock.2) :=
      (quiet_silent (r := p.endBlock.2) edge still).trans (endBlock_endBlock p)
    simp only [nothing, Option.toList_none, List.append_nil]
    exact .ended edge still

/-- An edge that changes the level makes the two the same again. -/
theorem Trails.edge (trails : p.Trails now before q after) (le : now ≤ tick)
    (change : swung ≠ p.level) :
    (q.edge swung tick).2 = (p.edge swung tick).2 ∧
      after ++ (q.edge swung tick).1.toList = before ++ (p.edge swung tick).1.toList := by
  cases trails with
  | even => exact ⟨rfl, rfl⟩
  | @ended last edge silent =>
    have late : p.silence < tick - last := by omega
    have held := (edge_eq change edge).trans (if_pos late)
    have given := (edge_eq (r := p.endBlock.2) change edge).trans (if_pos late)
    rw [held, given]
    exact ⟨rfl, List.append_nil _⟩

theorem Trails.level_eq (trails : p.Trails now before q after) : q.level = p.level := by
  cases trails <;> rfl

theorem Trails.finish (trails : p.Trails now before q after) :
    q.finish.2 = p.finish.2 ∧ after ++ q.finish.1.toList = before ++ p.finish.1.toList := by
  cases trails with
  | even => exact ⟨rfl, rfl⟩
  | ended edge silent => exact ⟨rfl, List.append_nil _⟩

/-! ### Runs -/

theorem calls_concat (r : Recorder) (calls : List Call) (call : Call) :
    (r.calls (calls ++ [call])).2 = (call.run (r.calls calls).2).2 := by
  rw [calls_append]
  rfl

theorem blocks_concat (r : Recorder) (calls : List Call) (call : Call) :
    r.blocks (calls ++ [call]) = r.blocks calls ++ (call.run (r.calls calls).2).1.toList := by
  unfold blocks
  rw [calls_append, List.reduceOption_append]
  rfl

theorem told_concat (calls : List Call) (call : Call) :
    told (calls ++ [call]) = told calls ++ if call.asks then [] else [call] := by
  rw [told, List.filter_append]
  cases call <;> rfl

/-- No call has an earlier tick than the one before. -/
def InOrder (calls : List Call) : Prop := (calls.filterMap Call.tick?).IsChain (· ≤ ·)

instance (calls : List Call) : Decidable (InOrder calls) :=
  inferInstanceAs (Decidable (List.IsChain _ _))

/-- What is in order up to a call is in order before it, and nothing there is later. -/
theorem InOrder.front {front rest : List Call} (inOrder : InOrder (front ++ rest)) :
    InOrder front ∧ ∀ earlier ∈ front.filterMap Call.tick?,
      ∀ later ∈ rest.filterMap Call.tick?, earlier ≤ later := by
  rw [InOrder, List.filterMap_append, List.isChain_iff_pairwise, List.pairwise_append] at inOrder
  obtain ⟨first, -, between⟩ := inOrder
  exact ⟨List.isChain_iff_pairwise.2 first, between⟩

theorem Trails.of_eq (same : q = p ∧ after = before) : p.Trails now before q after := by
  obtain ⟨rfl, rfl⟩ := same
  exact .even

/-- Whatever it was called for in between, a recorder that has been asked trails behind one that
has only been told. The induction takes the calls from the last one on. -/
theorem trails_calls (r : Recorder) (inOrder : InOrder calls)
    (past : ∀ tick ∈ calls.filterMap Call.tick?, tick ≤ now) :
    (r.calls (told calls)).2.Trails now (r.blocks (told calls)) (r.calls calls).2
      (r.blocks calls) := by
  induction calls using List.reverseRecOn generalizing now with
  | nil => exact .even
  | append_singleton calls call ih =>
    obtain ⟨first, between⟩ := inOrder.front
    simp only [List.filterMap_append, List.mem_append] at past
    rw [calls_concat, blocks_concat, told_concat]
    cases call with
    | quiet tick =>
      have here := ih first fun earlier member =>
        between earlier member tick (by simp [Call.tick?])
      have due : tick ≤ now := past tick (.inr (by simp [Call.tick?]))
      simp only [Call.asks, ↓reduceIte, List.append_nil]
      exact (here.quiet (Nat.le_refl tick)).later due
    | edge level tick =>
      have here := ih first fun earlier member =>
        between earlier member tick (by simp [Call.tick?])
      have due : tick ≤ now := past tick (.inr (by simp [Call.tick?]))
      simp only [Call.asks, Bool.false_eq_true, ↓reduceIte]
      rw [calls_concat, blocks_concat]
      by_cases same : level = (r.calls (told calls)).2.level
      · have nothing := edge_same same tick
        have none := edge_same (same.trans here.level_eq.symm) tick
        simp only [Call.run, nothing, none, Option.toList_none, List.append_nil]
        exact here.later due
      · exact .of_eq (here.edge (Nat.le_refl tick) same)
    | finish =>
      have here := ih first fun earlier member => past earlier (.inl member)
      simp only [Call.asks, Bool.false_eq_true, ↓reduceIte]
      rw [calls_concat, blocks_concat]
      exact .of_eq here.finish

/-- Asking a recorder whether the line has been quiet may bring a block sooner and does nothing
else. However often and whenever it is asked, so long as no call is earlier than the one before:
after every edge that changes the level the recorder is the same as if it had not been asked, and
has ended the same blocks in the same order; and in the end, when it has been told to finish, all
blocks are the same. -/
theorem only_sooner (r : Recorder) {calls : List Call} (inOrder : InOrder calls) :
    (∀ front level tick, front ++ [.edge level tick] <+: calls →
      level ≠ (r.calls front).2.level →
      let calls := front ++ [.edge level tick]
      (r.calls calls).2 = (r.calls (told calls)).2 ∧ r.blocks calls = r.blocks (told calls)) ∧
    ∀ front rest, calls = front ++ .finish :: rest → (∀ call ∈ rest, call.asks) →
      (r.calls calls).2 = (r.calls (told calls)).2 ∧ r.blocks calls = r.blocks (told calls) := by
  constructor
  · rintro front level tick ⟨rest, rfl⟩ change calls
    obtain ⟨first, between⟩ := (List.append_assoc front _ rest ▸ inOrder).front
    have trails := trails_calls r first fun earlier member =>
      between earlier member tick (by simp [Call.tick?])
    rw [trails.level_eq] at change
    have same := trails.edge (Nat.le_refl tick) change
    simp only [calls, told_concat, Call.asks, Bool.false_eq_true, ↓reduceIte, calls_concat,
      blocks_concat]
    exact same
  · rintro front rest rfl asks
    let all := front ++ .finish :: rest
    have past : ∀ tick ∈ all.filterMap Call.tick?, tick ≤ (all.filterMap Call.tick?).sum :=
      fun tick member => List.le_sum_of_mem member
    have trails := trails_calls r inOrder past
    -- A recorder that was told to finish last knows of no edge, so it holds nothing back.
    have last : told all = told front ++ [.finish] := by
      have none : told rest = [] :=
        List.filter_eq_nil_iff.2 fun call member => by simp [asks call member]
      rw [told, List.filter_append, List.filter_cons_of_pos rfl]
      exact congrArg (told front ++ .finish :: ·) none
    have forgot : (r.calls (told all)).2.edge? = none := by
      rw [last, calls_concat]
      rfl
    generalize (r.calls all).2 = q, r.blocks all = after at trails
    cases trails with
    | even => exact ⟨rfl, rfl⟩
    | ended edge => exact nomatch forgot.symm.trans edge

/-- A block of one byte. The recorder is asked in its middle, too soon behind it, and twice after
the silence, between which the level is told again; the next edge comes later still. -/
theorem only_sooner_byte :
    let r := new .rom 3500000
    let train := edgesOf 1000 (Timings.rom.widthsOf 256 [0xA5])
    let asked := train.take 200 ++ .quiet 433000 :: train.drop 200 ++
      [.quiet 590000, .quiet 600000, .edge true 600000, .quiet 610000]
    let calls := asked ++ [.edge false 720000, .finish, .quiet 800000]
    InOrder calls ∧ r.blocks asked = [#[0xA5]] ∧ r.blocks (told asked) = [] ∧
      (r.calls (asked ++ [.edge false 720000])).2 =
        (r.calls (told (asked ++ [.edge false 720000]))).2 ∧
      r.blocks calls = [#[0xA5]] ∧ r.blocks (told calls) = [#[0xA5]] := by
  intro r train asked calls
  have inOrder : InOrder calls := by decide +kernel
  obtain ⟨edges, finished⟩ := only_sooner r inOrder
  have found : r.blocks calls = [#[0xA5]] := by decide +kernel
  obtain ⟨-, same⟩ := finished (asked ++ [.edge false 720000]) [.quiet 800000]
    (by simp [calls]) (by simp [Call.asks])
  obtain ⟨state, -⟩ := edges asked false 720000 ⟨[.finish, .quiet 800000], by simp [calls]⟩
    (by decide +kernel)
  exact ⟨inOrder, by decide +kernel, by decide +kernel, state, found, same ▸ found⟩

end Cassette.Recorder
