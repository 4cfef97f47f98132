import Cassette.Proofs.Flowing

/-! Loops. The end of a loop leads back behind its start until the rounds are played, so one round
leads to the next (`Reaches.round`), and by induction on the rounds left to the block behind the
loop (`Reaches.rounds`). A walk begins anew with each interval, so it is given up only where the
rest of one round and the front of the next are longer than a walk may be, and no tape of few
enough blocks has that. Main statement: `plays_rounds`. -/

namespace Cassette

open Signal

namespace Tape

/-- A loop whose body flows; the block in the middle starts an interval. -/
structure Loop (t : Tape) (s : Settings) (first mid last : Nat) : Prop where
  flows : ∀ b ∈ t.between (first + 1) last, b.flows s t.image
  after : first < mid
  before : mid < last
  loud : ∃ b i, t.scan.blocks[mid]? = some b ∧ .start i ∈ b.sound s t.image
  ends : ∃ offset size, t.scan.blocks[last]? = some (.tzx ⟨offset, size, .loopEnd⟩)

end Tape

namespace Player

variable {t : Tape} {x : Index} {s : Settings} {p : Player} {n first mid last left : Nat}

/-- One round: the body is heard, and then the next round begins or the loop is left. -/
theorem Reaches.round (h : Indexed t x) (few : x.count < walkLimit) (routed : p.Routed t x s)
    (reaches : p.Reaches t (first + 1)) (loop : t.Loop s first mid last)
    (opened : p.route.loop? = some ⟨first, left⟩) (enough : mid - first ≤ n)
    (small : n ≤ walkLimit) :
    ∃ q m, p.Renders t x n (List.range' (first + 1) (last - first)) (t.score s (first + 1) last)
        m q ∧
      if left - 1 = 0 then
        q.Reaches t (last + 1) ∧ q.ordinal = last ∧ q.route = ⟨none, p.route.call?⟩
      else
        q.Reaches t (first + 1) ∧ q.route = ⟨some ⟨first, left - 1⟩, p.route.call?⟩ ∧
          mid - first ≤ m ∧ m ≤ walkLimit := by
  obtain ⟨flows, after, before, ⟨b, i, found, loud⟩, offset, size, ends⟩ := loop
  have inside : last < x.count := (h.read_of_found ends).1
  obtain ⟨q₁, m₁, body, there, route₁, budget⟩ := reaches.flow_loud h routed flows after before
    found loud (Nat.le_of_lt inside) (Nat.le_of_lt few) (by omega) small
  obtain ⟨m, rfl⟩ := Nat.exists_eq_add_one_of_ne_zero (show m₁ ≠ 0 by omega)
  have routed₁ := body.course.routed h routed
  have numbers := range'_last (show first + 1 ≤ last by omega)
  rw [Nat.add_sub_add_right] at numbers
  have opened₁ : q₁.route.loop? = some ⟨first, left⟩ := route₁ ▸ opened
  by_cases only : left - 1 = 0
  · have leaves : q₁.route.closeLoop = (.next, ⟨none, q₁.route.call?⟩) := by
      simp only [Route.closeLoop, opened₁, if_pos only]
    obtain ⟨q, close, next, here, -, route⟩ :=
      there.turns_next h routed₁ ends rfl (fun _ => leaves) m
    refine ⟨q, m, ?_, ?_⟩
    · have whole := body.trans close
      rwa [← numbers, List.append_nil] at whole
    · rw [if_pos only, route, route₁]
      exact ⟨next, here, rfl⟩
  · have again : q₁.route.closeLoop =
        (.goTo (first + 1), ⟨some ⟨first, left - 1⟩, q₁.route.call?⟩) := by
      simp only [Route.closeLoop, opened₁, if_neg only]
    obtain ⟨q, close, next, route⟩ := there.turns_goTo h routed₁ ends rfl
      (show first + 1 < x.count by omega) (fun _ => again) m
    obtain ⟨-, most⟩ := (body.trans close).course.budget small
    refine ⟨q, m, ?_, ?_⟩
    · have whole := body.trans close
      rwa [← numbers, List.append_nil] at whole
    · rw [if_neg only, route, route₁]
      exact ⟨next, rfl, by omega, most⟩

/-- However often the loop is still to be played, so often its body is heard, and then the loop is
left. -/
theorem Reaches.rounds (h : Indexed t x) (few : x.count < walkLimit) (routed : p.Routed t x s)
    (reaches : p.Reaches t (first + 1)) (loop : t.Loop s first mid last)
    (opened : p.route.loop? = some ⟨first, left⟩) (enough : mid - first ≤ n)
    (small : n ≤ walkLimit) :
    ∃ q m, p.Renders t x n
        (List.replicate (max 1 left) (List.range' (first + 1) (last - first))).flatten
        (List.replicate (max 1 left) (t.score s (first + 1) last)).flatten m q ∧
      q.Reaches t (last + 1) ∧ q.ordinal = last ∧ q.route = ⟨none, p.route.call?⟩ := by
  rw [show max 1 left = left - 1 + 1 by omega]
  generalize rounds : left - 1 = more
  induction more generalizing p n left with
  | zero =>
    obtain ⟨q, m, round, behind⟩ := reaches.round h few routed loop opened enough small
    rw [if_pos rounds] at behind
    exact ⟨q, m, by simpa using round, behind⟩
  | succ more ih =>
    obtain ⟨q, m, round, again⟩ := reaches.round h few routed loop opened enough small
    rw [if_neg (by omega)] at again
    obtain ⟨next, route, enough', small'⟩ := again
    obtain ⟨r, m', rest, behind, here, route'⟩ := ih (round.course.routed h routed) next
      (by rw [route]) enough' small' (by omega)
    refine ⟨r, m', ?_, behind, here, by rw [route', route]⟩
    rw [List.replicate_succ, List.flatten_cons, List.replicate_succ, List.flatten_cons]
    exact round.trans rest

/-- A loop is entered with nothing but time passing, whatever loop or call is open. Its body is
played as often as the start of the loop says, and once if that is never, with no block entered but
those of the loop. Then the block behind it is next, no loop is open, and the call is as before. -/
theorem plays_rounds (h : Indexed t x) (few : x.count < 0x100000) (underway : p.Underway t x s)
    (reaches : p.Reaches t first) {offset size offset' size' : Nat} {repetitions : UInt16}
    (starts : t.scan.blocks[first]? = some (.tzx ⟨offset, size, .loopStart repetitions⟩))
    (body : t.Sounds s (first + 1) last)
    (ends : t.scan.blocks[last]? = some (.tzx ⟨offset', size', .loopEnd⟩)) :
    let rounds := max 1 repetitions.toNat
    ∃ q m, p.Performs t x
        (first :: (List.replicate rounds (List.range' (first + 1) (last - first))).flatten)
        (heard p.level (List.replicate rounds (t.score s (first + 1) last)).flatten) m q ∧
      q.Reaches t (last + 1) ∧ q.ordinal = last ∧ q.route = ⟨none, p.route.call?⟩ := by
  intro rounds
  have routed := underway.routed h
  obtain ⟨mid, b, i, after, before, found, loud⟩ := body.exists_loud
  have loop : t.Loop s first mid last :=
    ⟨body.flows, after, before, ⟨b, i, found, loud⟩, offset', size', ends⟩
  have inside : last < x.count := (h.read_of_found ends).1
  have opening (offset : Nat) (b : Tzx.Block) (is : b.kind = .loopStart repetitions) :
      (p.atBlock first offset (.tzx b)).turn x (.tzx b) =
        (.next, ⟨some ⟨first, repetitions.toNat⟩, p.route.call?⟩) := by
    rw [turn, is]
    rfl
  obtain ⟨q, opens, next, -, -, route⟩ :=
    reaches.turns_next h routed starts rfl (fun offset => opening offset _ rfl) 0xFFFFF
  obtain ⟨r, m, plays, behind, here, route'⟩ := next.rounds h few (opens.course.routed h routed)
    loop (by rw [route]) (show mid - first ≤ 0xFFFFF by omega) (by decide)
  have whole := opens.trans plays
  refine ⟨r, m, ?_, behind, here, by rw [route', route]⟩
  exact whole.course.performs reaches.playing

/-- Three rounds of a pulse, with a text in front of it; the level is another in each round. -/
theorem plays_rounds_thrice :
    let t : Tape := ⟨.tzx, .ofBytes (Tzx.magic ++ #[1, 20, 0x24, 3, 0, 0x30, 1, 65, 0x12, 5, 0, 1,
      0, 0x25]), some (1, 20)⟩
    let x : Index := ⟨#[10], 4⟩
    let p := (new .standard 10).play
    Indexed t x ∧ x.count < 0x100000 ∧ p.Underway t x .standard ∧ p.Reaches t 0 ∧
      t.scan.blocks[0]? = some (.tzx ⟨10, 2, .loopStart 3⟩) ∧ t.Sounds .standard 1 3 ∧
      t.scan.blocks[3]? = some (.tzx ⟨21, 0, .loopEnd⟩) ∧
      ∃ q m, p.Performs t x [0, 1, 2, 3, 1, 2, 3, 1, 2, 3] [(true, 5), (false, 5), (true, 5)] m q ∧
        q.Reaches t 4 ∧ q.ordinal = 3 ∧ q.route = .fresh := by
  intro t x p
  have indexed : Indexed t x := ⟨rfl, by decide +kernel⟩
  have underway : p.Underway t x .standard := .reached (.play .new)
  have reaches : p.Reaches t 0 := ⟨rfl, rfl, rfl⟩
  have starts : t.scan.blocks[0]? = some (.tzx ⟨10, 2, .loopStart 3⟩) := by decide +kernel
  have ends : t.scan.blocks[3]? = some (.tzx ⟨21, 0, .loopEnd⟩) := by decide +kernel
  have score : t.score .standard 1 3 = [.start (pulse 5)] := by decide +kernel
  have body : t.Sounds .standard 1 3 := ⟨by decide +kernel, pulse 5, by simp [score]⟩
  have plays := plays_rounds indexed (by decide) underway reaches starts body ends
  rw [score] at plays
  exact ⟨indexed, by decide, underway, reaches, starts, body, ends, plays⟩

end Player

end Cassette
