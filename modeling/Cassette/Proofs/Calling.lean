import Cassette.Proofs.Flowing

/-! Call sequences. A call remembers which target is next, so that coming back to the caller leads
to the one behind it; from the last target the way leads straight behind the caller. One target
leads to the next (`Reaches.target`), and by induction on the targets left to the end of the
sequence (`Reaches.targets`). Main statement: `plays_targets`. -/

namespace Cassette

open Signal

/-- The number of the target that a call sequence leads to next. -/
def Route.nextTarget (r : Route) (caller : Nat) : Nat :=
  match r.call? with
  | some frame => if frame.caller = caller then frame.next else 0
  | none => 0

theorem Route.nextTarget_of_free {r : Route} {caller : Nat}
    (free : ∀ frame, r.call? = some frame → frame.caller ≠ caller) : r.nextTarget caller = 0 := by
  unfold nextTarget
  split
  · next frame opened => exact if_neg (free frame opened)
  · rfl

theorem Route.call_eq (r : Route) (caller count : Nat) (displacements : List Int16) :
    r.call caller count displacements =
      match displacements[r.nextTarget caller]? with
      | none => (.next, { r with call? := none })
      | some displacement => (.hop caller displacement count,
          { r with call? := some ⟨caller, r.nextTarget caller + 1, displacements.length⟩ }) := rfl

namespace Tape

/-- Blocks that can be called: they flow, one of them starts an interval, and a return follows. -/
structure Subroutine (t : Tape) (s : Settings) (first last : Nat) : Prop where
  sounds : t.Sounds s first last
  returns : ∃ offset size, t.scan.blocks[last]? = some (.tzx ⟨offset, size, .callReturn⟩)

/-- A displacement leads from the caller to a subroutine. -/
def Calls (t : Tape) (s : Settings) (caller : Nat) (displacement : Int16) (target : Nat × Nat) :
    Prop :=
  (caller : Int) + displacement.toInt = target.1 ∧ t.Subroutine s target.1 target.2

def scores (t : Tape) (s : Settings) (targets : List (Nat × Nat)) : List Beat :=
  targets.flatMap fun (first, last) => t.score s first last

end Tape

def calledFrom (caller : Nat) (targets : List (Nat × Nat)) : List Nat :=
  targets.flatMap fun (first, last) => caller :: List.range' first (last + 1 - first)

namespace Player

variable {t : Tape} {x : Index} {s : Settings} {p : Player} {n ordinal caller first last : Nat}
variable {offset size : Nat} {displacements : List Int16} {displacement : Int16}

/-- The call is over: the block behind the caller is next, or the tape has run out. -/
structure Returned (t : Tape) (x : Index) (caller : Nat) (p q : Player) : Prop where
  closed : q.route.call? = none
  next : caller + 1 < x.count → q.Reaches t (caller + 1) ∧ q.route.loop? = p.route.loop?
  out : x.count = caller + 1 → q.playing = false ∧ q.ranOut = true ∧ q.ordinal = 0

/-- The target that is next is called, and heard up to its return. -/
theorem Reaches.called (h : Indexed t x) (few : x.count < 0x80000) (routed : p.Routed t x s)
    (reaches : p.Reaches t caller)
    (found : t.scan.blocks[caller]? = some (.tzx ⟨offset, size, .callSequence displacements⟩))
    (target : displacements[p.route.nextTarget caller]? = some displacement)
    (calls : t.Calls s caller displacement (first, last)) (enough : x.count ≤ n)
    (small : n ≤ walkLimit) :
    ∃ q m, p.Renders t x n (caller :: List.range' first (last - first)) (t.score s first last)
        (m + 1) q ∧ x.count ≤ m ∧ q.Reaches t last ∧ q.route =
      ⟨p.route.loop?, some ⟨caller, p.route.nextTarget caller + 1, displacements.length⟩⟩ := by
  obtain ⟨leads, sub⟩ := calls
  obtain ⟨mid, b, i, le, lt, found', loud⟩ := sub.sounds.exists_loud
  obtain ⟨_, _, returns⟩ := sub.returns
  have limit : walkLimit = 0x100000 := rfl
  have inside : last < x.count := (h.read_of_found returns).1
  have hop : Turn.hop caller displacement x.count = .goTo first := by
    have here : caller < x.count := (h.read_of_found found).1
    rw [Turn.hop_of_lt (by omega), leads, Int.toNat_natCast, Turn.onTo, if_neg (by omega)]
  have called := p.route.call_eq caller x.count displacements
  simp only [target, hop] at called
  obtain ⟨n, rfl⟩ := Nat.exists_eq_add_one_of_ne_zero (show n ≠ 0 by omega)
  obtain ⟨q₁, calls, there, route₁⟩ := reaches.turns_goTo h routed found rfl
    (show first < x.count by omega) (fun _ => called) n
  obtain ⟨q₂, m₂, body, back, route₂, budget⟩ := there.flow_loud h (calls.course.routed h routed)
    sub.sounds.flows le lt found' loud (Nat.le_of_lt inside) (by omega) (by omega)
    (Nat.le_of_succ_le small)
  obtain ⟨m, rfl⟩ := Nat.exists_eq_add_one_of_ne_zero (show m₂ ≠ 0 by omega)
  exact ⟨q₂, m, calls.trans body, by omega, back, route₂.trans route₁⟩

/-- A return leads back to the caller while it has targets left, and else out of the call. -/
theorem Reaches.returned (h : Indexed t x) (routed : p.Routed t x s) (reaches : p.Reaches t ordinal)
    (found : t.scan.blocks[ordinal]? = some (.tzx ⟨offset, size, .callReturn⟩)) {next targets : Nat}
    (here : caller < x.count) (opened : p.route.call? = some ⟨caller, next, targets⟩) (n : Nat) :
    ∃ q, p.Renders t x (n + 1) [ordinal] [] n q ∧
      if next < targets then q.Reaches t caller ∧ q.route = p.route
      else Returned t x caller p q := by
  by_cases more : next < targets
  · have back : p.route.comeBack x.count = (.goTo caller, p.route) := by
      simp only [Route.comeBack, opened, if_pos more]
    obtain ⟨q, comes, again, route⟩ := reaches.turns_goTo h routed found rfl here (fun _ => back) n
    exact ⟨q, comes, by rw [if_pos more]; exact ⟨again, route⟩⟩
  · have leaves : p.route.comeBack x.count =
        (.onTo (caller + 1) x.count, { p.route with call? := none }) := by
      simp only [Route.comeBack, opened, if_neg more]
    by_cases behind : caller + 1 < x.count
    · rw [Turn.onTo, if_neg (Nat.not_le.2 behind)] at leaves
      obtain ⟨q, comes, on, route⟩ :=
        reaches.turns_goTo h routed found rfl behind (fun _ => leaves) n
      refine ⟨q, comes, ?_⟩
      rw [if_neg more]
      exact ⟨by rw [route], fun _ => ⟨on, by rw [route]⟩, by omega⟩
    · rw [Turn.onTo, if_pos (Nat.not_lt.1 behind)] at leaves
      obtain ⟨q, comes⟩ := reaches.turns_finish h routed found rfl (fun _ => leaves) n
      refine ⟨q.runOut, comes, ?_⟩
      rw [if_neg more]
      exact ⟨rfl, fun lt => absurd lt behind, fun _ => ⟨rfl, rfl, rfl⟩⟩

/-- From a target on, all that are left are called and heard in order, and then the call is over. -/
theorem Reaches.targets (h : Indexed t x) (few : x.count < 0x80000) (routed : p.Routed t x s)
    (reaches : p.Reaches t caller)
    (found : t.scan.blocks[caller]? = some (.tzx ⟨offset, size, .callSequence displacements⟩))
    {rest : List Int16} {targets : List (Nat × Nat)}
    (left : displacements.drop (p.route.nextTarget caller) = rest) (more : rest ≠ [])
    (calls : List.Forall₂ (t.Calls s caller) rest targets) (enough : x.count ≤ n)
    (small : n ≤ walkLimit) :
    ∃ q m, p.Renders t x n (calledFrom caller targets) (t.scores s targets) m q ∧
      Returned t x caller p q := by
  have here : caller < x.count := (h.read_of_found found).1
  induction calls generalizing p n with
  | nil => exact absurd rfl more
  | @cons displacement target rest targets one others ih =>
    obtain ⟨first, last⟩ := target
    have target : displacements[p.route.nextTarget caller]? = some displacement := by
      rw [← List.head?_drop, left]
      rfl
    have behind : displacements.drop (p.route.nextTarget caller + 1) = rest := by
      rw [← List.tail_drop, left]
      rfl
    obtain ⟨q₁, m, called, enough', there, route⟩ :=
      reaches.called h few routed found target one enough small
    have routed₁ := called.course.routed h routed
    obtain ⟨_, _, returns⟩ := one.2.returns
    obtain ⟨q₂, comes, after⟩ := there.returned h routed₁ returns here (by rw [route]) m
    have whole := called.trans comes
    rw [List.append_nil, List.cons_append, ← range'_last (Nat.le_of_lt one.2.sounds.lt)] at whole
    rw [calledFrom, List.flatMap_cons, Tape.scores, List.flatMap_cons]
    by_cases last : rest = []
    · subst last
      cases others
      rw [if_neg (Nat.not_lt.2 (List.drop_eq_nil_iff.1 behind))] at after
      refine ⟨q₂, m, by simpa using whole, after.closed, fun lt => ?_, after.out⟩
      obtain ⟨on, loop⟩ := after.next lt
      exact ⟨on, by rw [loop, route]⟩
    · have more : p.route.nextTarget caller + 1 < displacements.length :=
        Nat.not_le.1 fun le => last (behind.symm.trans (List.drop_eq_nil_of_le le))
      rw [if_pos more] at after
      obtain ⟨again, same⟩ := after
      have next : q₂.route.nextTarget caller = p.route.nextTarget caller + 1 := by
        rw [same, route]
        exact if_pos rfl
      obtain ⟨r, m', rest, returned⟩ := ih (comes.course.routed h routed₁) again
        (by rw [next]; exact behind) last enough' (whole.course.budget small).2
      refine ⟨r, m', whole.trans rest, returned.closed, fun lt => ?_, returned.out⟩
      obtain ⟨on, loop⟩ := returned.next lt
      exact ⟨on, by rw [loop, same, route]⟩

/-- Every target is called and heard, in order, and then the call is over. -/
def PlaysTargets (t : Tape) (x : Index) (s : Settings) (caller : Nat) (targets : List (Nat × Nat))
    (p q : Player) : Prop :=
  Returned t x caller p q ∧
    ∃ m, p.Performs t x (calledFrom caller targets) (heard p.level (t.scores s targets)) m q

/-- A call sequence without displacements, or a return where nothing has been called. -/
def Idle (t : Tape) (p : Player) (ordinal : Nat) : Prop :=
  ∃ offset size, t.scan.blocks[ordinal]? = some (.tzx ⟨offset, size, .callSequence []⟩) ∨
    t.scan.blocks[ordinal]? = some (.tzx ⟨offset, size, .callReturn⟩) ∧ p.route.call? = none

theorem Reaches.idle (h : Indexed t x) (routed : p.Routed t x s) (reaches : p.Reaches t ordinal)
    (idle : Idle t p ordinal) (n : Nat) :
    ∃ q, p.Course t x (n + 1) [ordinal] [] n q ∧ q.Reaches t (ordinal + 1) ∧
      q.route = ⟨p.route.loop?, none⟩ := by
  obtain ⟨_, _, found | ⟨found, closed⟩⟩ := idle
  · have through : p.route.call ordinal x.count [] = (.next, ⟨p.route.loop?, none⟩) :=
      p.route.call_eq ordinal x.count []
    obtain ⟨q, passes, next, -, -, route⟩ :=
      reaches.turns_next h routed found rfl (fun _ => through) n
    exact ⟨q, passes.course, next, route⟩
  · have through : p.route.comeBack x.count = (.next, p.route) := by
      simp only [Route.comeBack, closed]
    obtain ⟨q, passes, next, -, -, route⟩ :=
      reaches.turns_next h routed found rfl (fun _ => through) n
    exact ⟨q, passes.course, next, by rw [route, ← closed]⟩

/-- A call sequence is entered with no call of its own open and nothing but time passing. Every
target is called once, in order, and heard from its first block to its return; then the block
behind the caller is next, or the tape has run out. No call is open then, so that the whole
sequence is played again when the caller is next reached. What leads nowhere is passed through. -/
theorem plays_targets (h : Indexed t x) (few : x.count < 0x80000) :
    (∀ (p : Player) (caller offset size : Nat) (displacements : List Int16)
        (targets : List (Nat × Nat)), p.Underway t x s → p.Reaches t caller →
      (∀ frame, p.route.call? = some frame → frame.caller ≠ caller) →
      t.scan.blocks[caller]? = some (.tzx ⟨offset, size, .callSequence displacements⟩) →
      displacements ≠ [] → List.Forall₂ (t.Calls s caller) displacements targets →
      ∃ q, PlaysTargets t x s caller targets p q ∧
        ∀ r : Player, r.Underway t x s → r.Reaches t caller → r.route.call? = q.route.call? →
          ∃ q', PlaysTargets t x s caller targets r q') ∧
    ∀ (p : Player) (ordinal n : Nat), p.Underway t x s → p.Reaches t ordinal → Idle t p ordinal →
      ∃ q, p.Course t x (n + 1) [ordinal] [] n q ∧ q.Reaches t (ordinal + 1) ∧
        q.route = ⟨p.route.loop?, none⟩ := by
  refine ⟨?_, fun p ordinal n underway reaches idle =>
    reaches.idle h (underway.routed h) idle n⟩
  intro p caller offset size displacements targets underway reaches free found some calls
  have plays (p : Player) (underway : p.Underway t x s) (reaches : p.Reaches t caller)
      (free : ∀ frame, p.route.call? = .some frame → frame.caller ≠ caller) :
      ∃ q, PlaysTargets t x s caller targets p q := by
    have front : displacements.drop (p.route.nextTarget caller) = displacements := by
      rw [Route.nextTarget_of_free free, List.drop_zero]
    have enough : x.count ≤ walkLimit := Nat.le_trans (Nat.le_of_lt few) (by decide)
    obtain ⟨q, m, renders, returned⟩ := reaches.targets h few (underway.routed h) found front some
      calls enough (Nat.le_refl _)
    exact ⟨q, returned, m, renders.course.performs reaches.playing⟩
  obtain ⟨q, returned, performs⟩ := plays p underway reaches free
  refine ⟨q, ⟨returned, performs⟩, fun r underway reaches closed => plays r underway reaches ?_⟩
  rw [closed, returned.closed]
  exact nofun

/-- Two pulses and a return; the first block calls both, then the second alone, then both again. -/
theorem plays_targets_overlapping :
    let t : Tape := ⟨.tzx, .ofBytes (Tzx.magic ++ #[1, 20, 0x26, 3, 0, 2, 0, 3, 0, 2, 0, 0x20, 0, 0,
      0x12, 5, 0, 1, 0, 0x12, 6, 0, 1, 0, 0x27]), some (1, 20)⟩
    let x : Index := ⟨#[10], 5⟩
    let p := (new .standard 10).play
    Indexed t x ∧ x.count < 0x80000 ∧ p.Underway t x .standard ∧ p.Reaches t 0 ∧
      (∀ frame, p.route.call? = some frame → frame.caller ≠ 0) ∧
      t.scan.blocks[0]? = some (.tzx ⟨10, 8, .callSequence [2, 3, 2]⟩) ∧ [2, 3, 2] ≠ [] ∧
      List.Forall₂ (t.Calls .standard 0) [2, 3, 2] [(2, 4), (3, 4), (2, 4)] ∧
      ∃ q m, q.Reaches t 1 ∧ q.route = .fresh ∧ p.Performs t x [0, 2, 3, 4, 0, 3, 4, 0, 2, 3, 4]
        [(true, 5), (false, 6), (true, 6), (false, 5), (true, 6)] m q := by
  intro t x p
  have indexed : Indexed t x := ⟨rfl, by decide +kernel⟩
  have underway : p.Underway t x .standard := .reached (.play .new)
  have reaches : p.Reaches t 0 := ⟨rfl, rfl, rfl⟩
  have free : ∀ frame, p.route.call? = some frame → frame.caller ≠ 0 := nofun
  have found : t.scan.blocks[0]? = some (.tzx ⟨10, 8, .callSequence [2, 3, 2]⟩) := by
    decide +kernel
  have returns : t.scan.blocks[4]? = some (.tzx ⟨32, 0, .callReturn⟩) := by decide +kernel
  have both : t.score .standard 2 4 = [.start (pulse 5), .start (pulse 6)] := by decide +kernel
  have second : t.score .standard 3 4 = [.start (pulse 6)] := by decide +kernel
  have first_two : t.Subroutine .standard 2 4 :=
    ⟨⟨by decide +kernel, pulse 5, by simp [both]⟩, _, _, returns⟩
  have last_one : t.Subroutine .standard 3 4 :=
    ⟨⟨by decide +kernel, pulse 6, by simp [second]⟩, _, _, returns⟩
  have calls : List.Forall₂ (t.Calls .standard 0) [2, 3, 2] [(2, 4), (3, 4), (2, 4)] :=
    .cons ⟨rfl, first_two⟩ (.cons ⟨rfl, last_one⟩ (.cons ⟨rfl, first_two⟩ .nil))
  obtain ⟨q, ⟨returned, m, performs⟩, -⟩ := (plays_targets indexed (by decide)).1 p 0 10 8 [2, 3, 2]
    [(2, 4), (3, 4), (2, 4)] underway reaches free found (by simp) calls
  obtain ⟨next, loop⟩ := returned.next (by decide)
  have scores : t.scores .standard [(2, 4), (3, 4), (2, 4)] = [.start (pulse 5), .start (pulse 6),
      .start (pulse 6), .start (pulse 5), .start (pulse 6)] := by
    simp [Tape.scores, both, second]
  rw [scores] at performs
  have route : q.route = ⟨q.route.loop?, q.route.call?⟩ := rfl
  rw [loop, returned.closed] at route
  exact ⟨indexed, by decide, underway, reaches, free, found, by simp, calls, q, m, next, route,
    performs⟩

end Player

end Cassette
