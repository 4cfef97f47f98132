import Mathlib.Data.Finset.Prod
import Mathlib.Data.List.ProdSigma
import Cassette.Proofs.Circling

/-! When a walk is given up. A walk that enters too many blocks is taken for a circle, and the
blocks decide whether it is one. Only so many loops and calls can be open on a tape
(`Tape.routes`); where the blocks passed outnumber the ways in which the cursor can stand at a
block with one of them, it has stood somewhere twice (`Passes.endless`). A loop with many rounds
can outlast the walk all the same (`stalled_finite`). Main statement: `Reachable.stalled`. -/

namespace Cassette

/-! ### What can be open -/

/-- The loops that a block opens, by the rounds that are gone. -/
def Block.loops (ordinal : Nat) : Block → List OpenLoop
  | .tzx ⟨_, _, .loopStart repetitions⟩ =>
    (List.range (max 1 repetitions.toNat)).map fun gone => ⟨ordinal, repetitions.toNat - gone⟩
  | _ => []

/-- The calls that a block opens, one for each target. -/
def Block.calls (ordinal : Nat) : Block → List OpenCall
  | .tzx ⟨_, _, .callSequence displacements⟩ =>
    (List.range displacements.length).map fun target => ⟨ordinal, target + 1, displacements.length⟩
  | _ => []

theorem Block.loops_less {b : Block} {ordinal : Nat} {frame : OpenLoop}
    (opened : frame ∈ b.loops ordinal) (more : frame.left - 1 ≠ 0) :
    { frame with left := frame.left - 1 } ∈ b.loops ordinal := by
  unfold loops at opened ⊢
  split at opened
  · obtain ⟨gone, early, rfl⟩ := List.mem_map.1 opened
    refine List.mem_map.2 ⟨gone + 1, ?_, rfl⟩
    simp only [List.mem_range] at early more ⊢
    omega
  · exact absurd opened List.not_mem_nil

namespace Tape

variable {t : Tape} {r : Route} {ordinal : Nat}

def loops (t : Tape) : List (Option OpenLoop) :=
  none :: (t.scan.blocks.toList.zipIdx.flatMap fun (b, ordinal) => b.loops ordinal).map some

def calls (t : Tape) : List (Option OpenCall) :=
  none :: (t.scan.blocks.toList.zipIdx.flatMap fun (b, ordinal) => b.calls ordinal).map some

def routes (t : Tape) : List Route :=
  (t.loops ×ˢ t.calls).map fun (loop?, call?) => ⟨loop?, call?⟩

/-- In how many ways the cursor can stand at a block with a loop and a call open. -/
def ways (t : Tape) : Nat := t.scan.blocks.size * t.routes.length

theorem mem_routes : r ∈ t.routes ↔ r.loop? ∈ t.loops ∧ r.call? ∈ t.calls := by
  rw [← List.mem_product]
  constructor
  · intro member
    obtain ⟨_, found, rfl⟩ := List.mem_map.1 member
    exact found
  · intro found
    exact List.mem_map.2 ⟨_, found, rfl⟩

theorem some_mem_loops {frame : OpenLoop} : some frame ∈ t.loops ↔
    ∃ (b : Block) (ordinal : Nat), t.scan.blocks[ordinal]? = some b ∧ frame ∈ b.loops ordinal := by
  simp [loops, List.mem_zipIdx_iff_getElem?]

theorem some_mem_calls {frame : OpenCall} : some frame ∈ t.calls ↔
    ∃ (b : Block) (ordinal : Nat), t.scan.blocks[ordinal]? = some b ∧ frame ∈ b.calls ordinal := by
  simp [calls, List.mem_zipIdx_iff_getElem?]

theorem none_mem_loops : none ∈ t.loops := List.mem_cons_self

theorem none_mem_calls : none ∈ t.calls := List.mem_cons_self

theorem fresh_mem_routes : .fresh ∈ t.routes := mem_routes.2 ⟨none_mem_loops, none_mem_calls⟩

theorem closeLoop_mem_routes (here : r ∈ t.routes) : r.closeLoop.2 ∈ t.routes := by
  obtain ⟨loop, call⟩ := mem_routes.1 here
  cases opened : r.loop? with
  | none => simpa only [Route.closeLoop, opened] using here
  | some frame =>
    simp only [Route.closeLoop, opened]
    split
    · exact mem_routes.2 ⟨none_mem_loops, call⟩
    · next more =>
      rw [opened] at loop
      obtain ⟨b, ordinal, found, opens⟩ := some_mem_loops.1 loop
      exact mem_routes.2 ⟨some_mem_loops.2 ⟨b, ordinal, found, b.loops_less opens more⟩, call⟩

theorem call_mem_routes (here : r ∈ t.routes) {offset size : Nat} {displacements : List Int16}
    (found : t.scan.blocks[ordinal]? = some (.tzx ⟨offset, size, .callSequence displacements⟩))
    (count : Nat) : (r.call ordinal count displacements).2 ∈ t.routes := by
  obtain ⟨loop, call⟩ := mem_routes.1 here
  simp only [Route.call]
  split
  · exact mem_routes.2 ⟨loop, none_mem_calls⟩
  · next target =>
    obtain ⟨inside, -⟩ := List.getElem?_eq_some_iff.1 target
    refine mem_routes.2 ⟨loop, some_mem_calls.2 ⟨_, ordinal, found, ?_⟩⟩
    exact List.mem_map.2 ⟨_, List.mem_range.2 inside, rfl⟩

theorem comeBack_mem_routes (here : r ∈ t.routes) (count : Nat) :
    (r.comeBack count).2 ∈ t.routes := by
  unfold Route.comeBack
  split
  · exact here
  split
  · exact here
  · exact mem_routes.2 ⟨(mem_routes.1 here).1, none_mem_calls⟩

theorem take_mem_routes (here : r ∈ t.routes) {b : Tzx.Block}
    (found : t.scan.blocks[ordinal]? = some (.tzx b)) (count : Nat) (only48K : Bool) :
    (r.take ordinal b.kind count only48K).2 ∈ t.routes := by
  obtain ⟨offset, size, kind⟩ := b
  cases kind with
  | loopStart repetitions =>
    refine mem_routes.2 ⟨some_mem_loops.2 ⟨_, ordinal, found, ?_⟩, (mem_routes.1 here).2⟩
    exact List.mem_map.2 ⟨0, by simp, rfl⟩
  | loopEnd => exact closeLoop_mem_routes here
  | callSequence displacements => exact call_mem_routes here found count
  | callReturn => exact comeBack_mem_routes here count
  | _ => exact here

end Tape

namespace Player

open Signal

variable {t : Tape} {x : Index} {s : Settings} {p q r : Player}
variable {n fuel budget left rest ticks ordinal : Nat}

/-- Set in this way, and nothing is open but what the blocks open. -/
structure Framed (t : Tape) (s : Settings) (p : Player) : Prop where
  settings : p.settings = s
  route : p.route ∈ t.routes

theorem Framed.leave (framed : p.Framed t s) : p.leave.Framed t s := by
  unfold Player.leave
  split <;> exact ⟨framed.settings, framed.route⟩

theorem Framed.haltAfter (framed : p.Framed t s) (count : Nat) :
    (p.haltAfter count).Framed t s := by
  unfold Player.haltAfter
  split
  · exact ⟨framed.settings, framed.route⟩
  · exact ⟨framed.settings, Tape.fresh_mem_routes⟩

theorem Framed.follow (framed : p.Framed t s) (turn : Turn) :
    (p.follow t x turn).1.Framed t s := by
  obtain ⟨settings, route⟩ := framed
  cases turn with
  | next => exact ⟨settings, route⟩
  | goTo target =>
    simp only [Player.follow]
    split <;> exact ⟨settings, route⟩
  | stop => exact Framed.haltAfter ⟨settings, route⟩ x.count
  | finish => exact ⟨settings, Tape.fresh_mem_routes⟩

theorem Framed.enter (h : Indexed t x) (standing : p.Standing t x) (framed : p.Framed t s) :
    (p.enter t x).1.Framed t s := by
  obtain ⟨settings, route⟩ := framed
  unfold Player.enter
  split
  · exact ⟨settings, Tape.fresh_mem_routes⟩
  · next inside =>
    obtain ⟨b, found, read, -⟩ := h.read (Nat.not_le.1 inside)
    rw [← standing.offset] at read
    simp only [read]
    split
    · exact ⟨settings, route⟩
    · exact ⟨settings, route⟩
    · apply Framed.haltAfter
      exact ⟨settings, route⟩
    · exact ⟨settings, route⟩
    · apply Framed.follow
      refine ⟨settings, ?_⟩
      cases b with
      | tap _ => exact route
      | tzx c => exact Tape.take_mem_routes route found x.count _

/-- In step with the tape, and framed by it. -/
structure Routed (t : Tape) (x : Index) (s : Settings) (p : Player) : Prop where
  standing : p.Standing t x
  framed : p.Framed t s

theorem Routed.leave (h : Indexed t x) (routed : p.Routed t x s) : p.leave.Routed t x s :=
  ⟨routed.standing.leave h, routed.framed.leave⟩

theorem Routed.enter (h : Indexed t x) (routed : p.Routed t x s) :
    (p.leave.enter t x).1.Routed t x s :=
  have ⟨standing, framed⟩ := routed.leave h
  ⟨(enter_sound h standing leave_idle).1, framed.enter h standing⟩

theorem Routed.onto (h : Indexed t x) (routed : p.Routed t x s) (n : Nat) :
    ((Player.onto t x)^[n] p).Routed t x s := by
  induction n generalizing p with
  | zero => exact routed
  | succ n ih => exact ih (routed.enter h)

theorem walk_routed (h : Indexed t x) (routed : p.Routed t x s) (budget : Nat) :
    (walk t x budget p).1.Routed t x s := by
  refine ⟨(walk_sound h budget routed.standing).1, ?_⟩
  fun_induction walk t x budget p with
  | case1 => exact ⟨routed.framed.settings, routed.framed.route⟩
  | case2 => exact ⟨routed.framed.settings, routed.framed.route⟩
  | case3 => exact routed.framed.leave
  | case4 p _ _ _ q fault failed =>
    have entered := routed.enter h
    rw [failed] at entered
    exact entered.framed
  | case5 p _ _ _ q went ih =>
    have entered := routed.enter h
    rw [went] at entered
    exact ih entered
  | case6 => exact routed.framed

/-! ### Walks without end -/

theorem Standing.next_fault (h : Indexed t x) (standing : p.Standing t x) {fault : Fault}
    (failed : p.phase.next p.settings t.image = .error fault) : fault = .cutShort := by
  by_cases idle : p.phase = .idle
  · rw [idle] at failed
    exact nomatch failed
  · obtain ⟨b, -, within⟩ := standing.within idle
    exact ((Phase.next_within h.whole within).2 fault failed).1

theorem follow_ok (h : Indexed t x) {turn : Turn}
    (leads : ∀ target, turn = .goTo target → target < x.count) :
    (p.follow t x turn).2 = .ok () := by
  cases turn with
  | goTo target => simp only [follow, h.locate_eq (leads target rfl)]
  | _ => rfl

/-- No turn leads off the tape, so only a payload can keep a block from being entered. -/
theorem Standing.enter_fault (h : Indexed t x) (standing : p.Standing t x) (idle : p.phase = .idle)
    {fault : Fault} (failed : (p.enter t x).2 = .error fault) : fault = .packedSamples := by
  unfold enter at failed
  split at failed
  · exact nomatch failed
  · next inside =>
    have inside := Nat.not_le.1 inside
    obtain ⟨b, found, read, -⟩ := h.read inside
    rw [← standing.offset] at read
    simp only [read] at failed
    split at failed
    · next refused =>
      obtain rfl := Except.error.inj failed
      exact ((Entry.ofBlock_within h.whole (Tape.payload_fits h.whole read)).2 _ refused).1
    · exact nomatch failed
    · exact nomatch failed
    · exact nomatch failed
    · have sound := standing.turn_sound idle inside b
      exact nomatch (follow_ok h sound.goTo).symm.trans failed

/-- So many blocks are passed on the way to a player that is to enter one more. -/
structure Overruns (t : Tape) (x : Index) (n : Nat) (p q : Player) : Prop where
  passes : p.Passes t x n
  reached : (onto t x)^[n] p = q
  playing : q.playing = true
  ended : q.phase.next q.settings t.image = .ok none

theorem overruns_succ_iff : p.Overruns t x (n + 1) q ↔
    p.playing = true ∧ p.phase.next p.settings t.image = .ok none ∧
      (p.leave.enter t x).2 = .ok () ∧ (p.onto t x).Overruns t x n q := by
  constructor
  · rintro ⟨passes, reached, still, last⟩
    obtain ⟨playing, ended, entered, on⟩ := passes_succ_iff.1 passes
    exact ⟨playing, ended, entered, on, reached, still, last⟩
  · rintro ⟨playing, ended, entered, on, reached, still, last⟩
    exact ⟨passes_succ_iff.2 ⟨playing, ended, entered, on⟩, reached, still, last⟩

/-- Where blocks are passed, there is one more to enter in front of the last, and what is passed
from there on is passed behind the others. -/
theorem Passes.overruns (passes : p.Passes t x (n + 1)) : ∃ l, p.Overruns t x n l ∧
    l.Passes t x 1 ∧ ∀ m, l.Passes t x m → p.Passes t x (n + m) := by
  obtain ⟨first, last⟩ := passes_add.1 passes
  obtain ⟨playing, ended, -⟩ := passes_succ_iff.1 last
  exact ⟨_, ⟨first, rfl, playing, ended⟩, last, fun m more => passes_add.2 ⟨first, more⟩⟩

/-- A walk that would have to enter more blocks than it may is given up in front of the next. -/
theorem Overruns.walk (overruns : p.Overruns t x budget q) :
    Player.walk t x budget p = (q.leave, .error (.endlessWalk q.leave.ordinal)) := by
  induction budget generalizing p with
  | zero =>
    obtain ⟨-, reached, playing, ended⟩ := overruns
    obtain rfl : p = q := reached
    rw [Player.walk, if_pos playing, ended]
  | succ budget ih =>
    obtain ⟨playing, ended, entered, on⟩ := overruns_succ_iff.1 overruns
    have there : p.leave.enter t x = (p.onto t x, .ok ()) := Prod.ext rfl entered
    rw [Player.walk, if_pos playing, ended]
    simp only [there]
    exact ih on

theorem walk_endless (h : Indexed t x) (standing : p.Standing t x)
    (walked : walk t x budget p = (q, .error (.endlessWalk ordinal))) :
    ∃ r, p.Overruns t x budget r ∧ q = r.leave ∧ ordinal = q.ordinal := by
  fun_induction walk t x budget p with
  | case1 _ _ _ _ failed =>
    obtain ⟨-, fault⟩ := Prod.mk.inj walked
    exact nomatch (standing.next_fault h failed).symm.trans (Except.error.inj fault)
  | case2 => exact nomatch (Prod.mk.inj walked).2
  | case3 p playing ended =>
    obtain ⟨rfl, fault⟩ := Prod.mk.inj walked
    cases fault
    exact ⟨p, ⟨.here, rfl, playing, ended⟩, rfl, rfl⟩
  | case4 p _ _ _ q fault failed =>
    obtain ⟨-, fault⟩ := Prod.mk.inj walked
    have refused := (standing.leave h).enter_fault h leave_idle (congrArg Prod.snd failed)
    exact nomatch refused.symm.trans (Except.error.inj fault)
  | case5 p playing ended budget q' entered ih =>
    have sound := enter_sound h (standing.leave h) leave_idle
    have on : p.onto t x = q' := congrArg Prod.fst entered
    rw [entered] at sound
    obtain ⟨r, overruns, given⟩ := ih sound.1 walked
    exact ⟨r, overruns_succ_iff.2 ⟨playing, ended, congrArg Prod.snd entered, on ▸ overruns⟩, given⟩
  | case6 => exact nomatch (Prod.mk.inj walked).2

/-! ### Calls -/

/-- An answer comes from a player that has halted or has ticks to spare, a fault from one that
cannot be played on. -/
theorem spend_comes {a : Except Fault Nat} (spent : spend t x fuel p left = some (q, a)) :
    ∃ r rest, p.Comes t x left r rest ∧
      ((∃ n remaining, a = .ok n ∧ q = { r with remaining }) ∨
        r.remaining ≤ rest ∧ ∃ q' fault, walk t x walkLimit { r with remaining := 0 } =
          (q', .error fault) ∧ q = q'.stop ∧ a = .error fault) := by
  induction fuel generalizing p left with
  | zero => exact nomatch spent
  | succ fuel ih =>
    cases spend_cases spent with
    | stopped => exact ⟨q, left, .here, .inl ⟨left, q.remaining, rfl, rfl⟩⟩
    | early => exact ⟨p, left, .here, .inl ⟨0, _, rfl, rfl⟩⟩
    | fault playing late walked =>
      exact ⟨p, left, .here, .inr ⟨late, _, _, walked, rfl, rfl⟩⟩
    | edge playing late walked on =>
      obtain ⟨r, rest, comes, answer⟩ := ih on
      exact ⟨r, rest, .edge playing late walked comes, answer⟩

theorem Comes.spend_error {fault : Fault} (comes : p.Comes t x left r rest)
    (playing : r.playing = true) (late : r.remaining ≤ rest)
    (walked : walk t x walkLimit { r with remaining := 0 } = (q, .error fault)) :
    ∃ fuel, Player.spend t x fuel p left = some (q.stop, .error fault) := by
  induction comes with
  | here =>
    refine ⟨1, ?_⟩
    rw [spend_late playing late, startInterval, walked]
  | edge first early went _ ih =>
    obtain ⟨fuel, spent⟩ := ih playing late walked
    refine ⟨fuel + 1, ?_⟩
    rw [spend_late first early, went]
    exact spent

theorem Routed.paused (routed : p.Routed t x s) (remaining : Nat) (playing : Bool) :
    Routed t x s { p with remaining, playing } :=
  ⟨routed.standing.paused remaining playing, routed.framed.settings, routed.framed.route⟩

theorem Comes.routed (h : Indexed t x) (comes : p.Comes t x left r rest)
    (routed : p.Routed t x s) : r.Routed t x s := by
  induction comes with
  | here => exact routed
  | @edge p _ _ _ _ _ _ walked _ ih =>
    have after := walk_routed h (routed.paused 0 p.playing) walkLimit
    rw [startInterval] at walked
    rw [walked] at after
    exact ih after

theorem Reachable.routed (h : Indexed t x) (reachable : Reachable t x s p) : p.Routed t x s := by
  refine ⟨reachable.standing h, ?_⟩
  induction reachable with
  | new => exact ⟨rfl, Tape.fresh_mem_routes⟩
  | play _ ih | stop _ ih => exact ⟨ih.settings, ih.route⟩
  | rewind _ ih | seek _ _ ih => exact ⟨ih.settings, Tape.fresh_mem_routes⟩
  | @advance p q fuel ticks a before advanced ih =>
    obtain ⟨_, spent, -⟩ := advance_eq_some_iff.1 advanced
    obtain ⟨r, rest, comes, answer⟩ := spend_comes spent
    have routed := comes.routed h ⟨before.standing h, ih⟩
    rcases answer with ⟨n, remaining, -, rfl⟩ | ⟨-, q', fault, walked, rfl, -⟩
    · exact (routed.paused remaining _).framed
    · have after := walk_routed h (routed.paused 0 r.playing) walkLimit
      rw [walked] at after
      exact (after.paused _ _).framed

/-! ### Endless walks -/

/-- At the end of the tape there is nothing more to play. -/
theorem inside_of_onto (playing : (p.onto t x).playing = true) : p.leave.ordinal < x.count := by
  by_contra behind
  rw [onto, enter, if_pos (Nat.not_lt.1 behind)] at playing
  exact Bool.false_ne_true playing

theorem Passes.playing (passes : p.Passes t x n) (playing : ((onto t x)^[n] p).playing = true)
    {k : Nat} (le : k ≤ n) : ((onto t x)^[k] p).playing = true := by
  obtain ⟨more, rfl⟩ := Nat.exists_eq_add_of_le le
  cases more with
  | zero => exact playing
  | succ more => exact (passes_succ_iff.1 (passes_add.1 passes).2).1

theorem Routed.abreast (routed : p.Routed t x s) (other : q.Routed t x s) (idle : p.phase = .idle)
    (idle' : q.phase = .idle) (playing : p.playing = q.playing) (ordinal : p.ordinal = q.ordinal)
    (route : p.route = q.route) : p.Abreast q where
  settings := routed.framed.settings.trans other.framed.settings.symm
  start := routed.standing.start.trans other.standing.start.symm
  ordinal := ordinal
  offset := by rw [routed.standing.offset, other.standing.offset, ordinal]
  behind under := absurd idle under
  phase := idle.trans idle'.symm
  playing := playing
  route := route

/-- A player that passes more blocks than there are ways to stand at one passes blocks for ever:
it has stood somewhere twice. -/
theorem Overruns.endless (h : Indexed t x) (routed : p.Routed t x s)
    (overruns : p.Overruns t x n q) (many : t.ways < n) (m : Nat) : q.Passes t x m := by
  obtain ⟨passes, rfl, playing, -⟩ := overruns
  let front (k : Nat) : Player := ((onto t x)^[k] p).leave
  have stands (k : Nat) : (front k).Routed t x s := (routed.onto h k).leave h
  have runs (k : Nat) (early : k ≤ t.ways + 1) : ((onto t x)^[k] p).playing = true :=
    passes.playing playing (by omega)
  let places : Finset (Nat × Route) := Finset.range x.count ×ˢ t.routes.toFinset
  have there : ∀ k ∈ Finset.range (t.ways + 1), ((front k).ordinal, (front k).route) ∈ places := by
    intro k early
    have on := runs (k + 1) (Nat.succ_le_of_lt (Finset.mem_range.1 early))
    rw [Function.iterate_succ_apply'] at on
    refine Finset.mem_product.2 ⟨Finset.mem_range.2 (inside_of_onto on), ?_⟩
    exact List.mem_toFinset.2 (stands k).framed.route
  have few : places.card < (Finset.range (t.ways + 1)).card := by
    have distinct := t.routes.toFinset_card_le
    rw [Finset.card_product, Finset.card_range, Finset.card_range, h.count_eq]
    exact Nat.lt_succ_of_le (Nat.mul_le_mul_left _ distinct)
  obtain ⟨i, hi, j, hj, apart, same⟩ := Finset.exists_ne_map_eq_of_card_lt_of_maps_to few there
  wlog before : i < j generalizing i j
  · exact this j hj i hi apart.symm same.symm (by omega)
  have late := Finset.mem_range.1 hj
  obtain ⟨ordinal, route⟩ := Prod.mk.inj same
  have still : (front i).playing = (front j).playing := by
    rw [leave_playing, leave_playing, runs i (by omega), runs j (by omega)]
  have abreast := (stands i).abreast (stands j) leave_idle leave_idle still ordinal route
  have all := (passes.of_le (by omega)).circle before abreast
  exact (passes_add.1 (all (n + m))).2

/-- Stopped in front of a block and started again, a player is where it was. -/
theorem abreast_again (playing : p.playing = true) : p.leave.Abreast p.leave.stop.play :=
  ⟨rfl, rfl, rfl, rfl, fun _ => rfl, rfl, (leave_playing p).trans playing, rfl⟩

theorem Passes.of_again (ready : p.Passes t x 1) (on : p.leave.stop.play.Passes t x n) :
    p.Passes t x n := by
  have again := (abreast_again (passes_succ_iff.1 ready).1).symm.leave
  rw [leave_leave] at again
  exact again.passes_of_leave ready on

/-- A call ends in a walk without end just where a walk has come to that would have to enter more
blocks than it may. -/
theorem elapses_endless_iff (h : Indexed t x) (routed : p.Routed t x s) :
    p.Elapses t x ticks q (.error (.endlessWalk ordinal)) ↔
      ∃ r rest l, p.Comes t x ticks r rest ∧ r.remaining ≤ rest ∧
        { r with remaining := 0 }.Overruns t x walkLimit l ∧ q = l.leave.stop ∧
        ordinal = q.ordinal := by
  constructor
  · rintro ⟨fuel, advanced⟩
    obtain ⟨a, spent, fault⟩ := advance_eq_some_iff.1 advanced
    obtain ⟨r, rest, comes, given⟩ := spend_comes spent
    rcases given with ⟨n, remaining, rfl, -⟩ | ⟨late, q', _, walked, rfl, rfl⟩
    · exact nomatch fault
    obtain rfl := Except.error.inj fault
    have standing := ((comes.routed h routed).paused 0 r.playing).standing
    obtain ⟨l, overruns, rfl, rfl⟩ := walk_endless h standing walked
    exact ⟨r, rest, l, comes, late, overruns, rfl, rfl⟩
  · rintro ⟨r, rest, l, comes, late, overruns, rfl, rfl⟩
    have playing : r.playing = true := (passes_succ_iff.1 overruns.passes).1
    obtain ⟨fuel, spent⟩ := comes.spend_error playing late overruns.walk
    refine ⟨fuel, ?_⟩
    rw [advance, spent]
    rfl

/-- A call ends in a walk without end just where `walkLimit` blocks have been entered one behind
the other, with no interval, halt or end of the tape between them, and one more is to be entered.
If these are more than the ways to stand at a block, then the walk has no end indeed: played on
from there, the tape passes from block to block for ever. -/
theorem Reachable.stalled (h : Indexed t x) (reachable : Reachable t x s p) :
    (p.Elapses t x ticks q (.error (.endlessWalk ordinal)) ↔
      ∃ r rest l, p.Comes t x ticks r rest ∧ r.remaining ≤ rest ∧
        { r with remaining := 0 }.Overruns t x walkLimit l ∧ q = l.leave.stop ∧
        ordinal = q.ordinal) ∧
    (t.ways < walkLimit → p.Elapses t x ticks q (.error (.endlessWalk ordinal)) →
      ∀ n, q.play.Passes t x n) := by
  have routed := reachable.routed h
  refine ⟨elapses_endless_iff h routed, fun few stalled n => ?_⟩
  obtain ⟨r, rest, l, comes, -, overruns, rfl, -⟩ := (elapses_endless_iff h routed).1 stalled
  have on := overruns.endless h ((comes.routed h routed).paused 0 r.playing) few n
  exact (abreast_again overruns.playing).passes on.leave

/-- A jump that leads back to itself. -/
theorem stalled_jump :
    let t : Tape := ⟨.tzx, .ofBytes (Tzx.magic ++ #[1, 20, 0x23, 0xFF, 0xFF]), some (1, 20)⟩
    let x : Index := ⟨#[10], 1⟩
    let p := (new .standard 10).play
    Indexed t x ∧ Reachable t x .standard p ∧ t.ways < walkLimit ∧
      ∃ q, p.Elapses t x 100 q (.error (.endlessWalk 0)) ∧ ∀ n, q.play.Passes t x n := by
  intro t x p
  have indexed : Indexed t x := ⟨rfl, by decide +kernel⟩
  have reachable : Reachable t x .standard p := .play .new
  have few : t.ways < walkLimit := by decide +kernel
  let first : Player := { p with behind := 13, head := 13 }
  have start : p.leave.enter t x = (first, .ok ()) := by decide +kernel
  have again : first.leave.enter t x = (first, .ok ()) := by decide +kernel
  have circles (n : Nat) : first.Overruns t x n first := by
    induction n with
    | zero => exact ⟨.here, rfl, rfl, rfl⟩
    | succ n ih =>
      refine overruns_succ_iff.2 ⟨rfl, rfl, congrArg Prod.snd again, ?_⟩
      rwa [onto, again]
  have overruns : p.Overruns t x walkLimit first := by
    refine overruns_succ_iff.2 ⟨rfl, rfl, congrArg Prod.snd start, ?_⟩
    rw [onto, start]
    exact circles _
  obtain ⟨reported, endless⟩ := Reachable.stalled indexed reachable
  have elapsed : p.Elapses t x 100 first.stop (.error (.endlessWalk 0)) :=
    reported.2 ⟨p, 100, first, .here, Nat.zero_le 100, overruns, rfl, rfl⟩
  exact ⟨indexed, reachable, few, first.stop, elapsed, endless few elapsed⟩

/-! ### A long loop -/

/-- Blocks that are too many for a walk are taken for endless even if they are not. -/
theorem Passes.refused (h : Indexed t x) (routed : p.Routed t x s) (late : p.remaining ≤ ticks)
    (passes : { p with remaining := 0 }.Passes t x (walkLimit + 1))
    (finite : ¬ ∀ n, { p with remaining := 0 }.Passes t x n) :
    ∃ q ordinal, p.Elapses t x ticks q (.error (.endlessWalk ordinal)) ∧
      ¬ ∀ n, q.play.Passes t x n := by
  obtain ⟨l, overruns, ready, joined⟩ := passes.overruns
  refine ⟨l.leave.stop, l.leave.ordinal, ?_, fun on => finite fun n => ?_⟩
  · exact (elapses_endless_iff h routed).2 ⟨p, ticks, l, .here, late, overruns, rfl, rfl⟩
  · have more : l.Passes t x n := ready.of_again (on n)
    exact (joined n more).of_le (Nat.le_add_left n walkLimit)

def Leads (t : Tape) (x : Index) (n : Nat) (p q : Player) : Prop :=
  p.Passes t x n ∧ (onto t x)^[n] p = q

theorem Leads.trans (first : p.Leads t x m q) (second : q.Leads t x n r) :
    p.Leads t x (m + n) r := by
  obtain ⟨passes, rfl⟩ := first
  obtain ⟨more, rfl⟩ := second
  refine ⟨passes_add.2 ⟨passes, more⟩, ?_⟩
  rw [Nat.add_comm, Function.iterate_add_apply]

theorem leads_one (playing : p.playing = true)
    (ended : p.phase.next p.settings t.image = .ok none)
    (entered : p.leave.enter t x = (q, .ok ())) : p.Leads t x 1 q :=
  ⟨.next playing ended entered .here, congrArg Prod.fst entered⟩

/-- A loop of 65535 rounds over eighteen blocks that do nothing, and a tone. -/
def longLoop : Tape :=
  ⟨.tzx, .ofBytes (Tzx.magic ++ #[1, 20, 0x24, 0xFF, 0xFF] ++ Array.replicate 18 0x22 ++
    #[0x25, 0x12, 100, 0, 1, 0]), some (1, 20)⟩

def longLoopIndex : Index := ⟨#[10, 28], 21⟩

def inLoop (ordinal left : Nat) : Player :=
  { (new .standard 10).play with
    ordinal
    offset := ordinal + 12
    behind := ordinal + 13
    phase := .done
    route := ⟨some ⟨0, left⟩, none⟩
    head := ordinal + 13 }

theorem enter_silent {b : Tzx.Block} (inside : p.ordinal < x.count)
    (read : t.blockAt? p.offset = .ok (some (.tzx b)))
    (silent : Entry.ofKind p.settings t.image b.kind = .ok .route) :
    p.enter t x =
      { p with
        behind := p.offset + b.size
        head := headAfterEntry (.tzx b) (p.offset + b.size)
        route := (p.turn x (.tzx b)).2 }.follow t x (p.turn x (.tzx b)).1 := by
  simp only [enter, if_neg (Nat.not_le.2 inside), read, Entry.ofBlock, silent]
  rfl

theorem leads_inLoop (early : n < 17) (left : Nat) :
    (inLoop (n + 1) left).Leads longLoop longLoopIndex 1 (inLoop (n + 2) left) := by
  have marks : ∀ k < 17, longLoop.blockAt? (k + 14) = .ok (some (.tzx ⟨k + 14, 0, .groupEnd⟩)) := by
    decide +kernel
  have inside : (inLoop (n + 1) left).leave.ordinal < longLoopIndex.count := by
    change n + 2 < 21
    omega
  exact leads_one rfl rfl (enter_silent inside (marks n early) rfl)

theorem leads_round (left : Nat) :
    (inLoop 18 (left + 2)).Leads longLoop longLoopIndex 2 (inLoop 1 (left + 1)) := by
  let back : Player :=
    { inLoop 1 (left + 1) with behind := 32, offset := 13, phase := .idle, head := 13 }
  have ends : longLoop.blockAt? 31 = .ok (some (.tzx ⟨31, 0, .loopEnd⟩)) := by decide +kernel
  have mark : longLoop.blockAt? 13 = .ok (some (.tzx ⟨13, 0, .groupEnd⟩)) := by decide +kernel
  have found : longLoopIndex.locate longLoop 1 = .ok 13 := by decide +kernel
  have turns : (inLoop 18 (left + 2)).leave.enter longLoop longLoopIndex = (back, .ok ()) := by
    have inside : 19 < longLoopIndex.count := by decide
    have goes : (inLoop 18 (left + 2)).leave.turn longLoopIndex (.tzx ⟨31, 0, .loopEnd⟩) =
        (.goTo 1, ⟨some ⟨0, left + 1⟩, none⟩) := rfl
    rw [enter_silent inside ends rfl, goes]
    simp only [follow, found]
    rfl
  have on : back.leave.enter longLoop longLoopIndex = (inLoop 1 (left + 1), .ok ()) := by
    have inside : 1 < longLoopIndex.count := by decide
    exact (enter_silent (p := back.leave) inside mark rfl)
  exact (leads_one rfl rfl turns).trans (leads_one rfl rfl on)

theorem leads_through (n : Nat) (inside : n ≤ 17) (left : Nat) :
    (inLoop 1 left).Leads longLoop longLoopIndex n (inLoop (n + 1) left) := by
  induction n with
  | zero => exact ⟨.here, rfl⟩
  | succ n ih => exact (ih (by omega)).trans (leads_inLoop (by omega) left)

theorem leads_rounds (left : Nat) :
    (inLoop 1 (left + 1)).Leads longLoop longLoopIndex (19 * left) (inLoop 1 1) := by
  induction left with
  | zero => exact ⟨.here, rfl⟩
  | succ left ih =>
    have round := (leads_through 17 (Nat.le_refl 17) (left + 2)).trans (leads_round left)
    rw [Nat.mul_succ, Nat.add_comm]
    exact round.trans ih

/-- From the last round it is nineteen blocks to the tone. -/
theorem not_passes_tone : ¬ (inLoop 1 1).Passes longLoop longLoopIndex 20 := by
  intro passes
  have through := leads_through 17 (Nat.le_refl 17) 1
  obtain ⟨-, on⟩ := (passes_add (m := 17) (n := 3)).1 passes
  rw [through.2] at on
  obtain ⟨-, on⟩ := (passes_add (m := 2) (n := 1)).1 on
  obtain ⟨-, ended, -⟩ := passes_succ_iff.1 on
  revert ended
  decide +kernel

/-- The loop takes longer than a walk may, and then the tone is played. -/
theorem stalled_finite :
    let p := (new .standard longLoop.start).play
    Indexed longLoop longLoopIndex ∧ Reachable longLoop longLoopIndex .standard p ∧
      ∃ q ordinal, p.Elapses longLoop longLoopIndex 50 q (.error (.endlessWalk ordinal)) ∧
        ¬ ∀ n, q.play.Passes longLoop longLoopIndex n := by
  intro p
  have indexed : Indexed longLoop longLoopIndex := ⟨rfl, by decide +kernel⟩
  have reachable : Reachable longLoop longLoopIndex .standard p := .play .new
  let first : Player := { inLoop 0 65535 with offset := 10, behind := 13, head := 13 }
  have opens : p.Leads longLoop longLoopIndex 1 first :=
    leads_one rfl rfl (by decide +kernel)
  have enters : first.Leads longLoop longLoopIndex 1 (inLoop 1 65535) :=
    leads_one rfl rfl (by decide +kernel)
  have rounds := (opens.trans enters).trans (leads_rounds 65534)
  have finite : ¬ ∀ n, p.Passes longLoop longLoopIndex n := by
    intro all
    obtain ⟨-, on⟩ := passes_add.1 (all (1 + 1 + 19 * 65534 + 20))
    rw [rounds.2] at on
    exact not_passes_tone on
  have passes : p.Passes longLoop longLoopIndex (walkLimit + 1) := rounds.1.of_le (by decide)
  have refused := passes.refused indexed (reachable.routed indexed) (Nat.zero_le 50) finite
  exact ⟨indexed, reachable, refused⟩

end Player

end Cassette
