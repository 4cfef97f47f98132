import Cassette.Proofs.Unpacking

/-! Blocks that are played one behind the other. `Block.flows` excludes what leads elsewhere, stops
the tape or fails; of blocks that flow, `Tape.score` is all they do to the line, in order. Main
statements: `Reaches.flow`, such blocks are entered in order and their score is heard, and
`Reaches.flow_loud`, for which a walk has to last only to the first interval. -/

namespace Cassette

open Signal

namespace Block

/-- What the block does to the line. Packed samples without a rate are nothing but their pause. -/
def sound (s : Settings) (image : Image) : Block → List Beat
  | .tzx ⟨_, _, .csw pauseMs rate _ _ data⟩ =>
    let runs := if rate = 0 then [] else (runsOf (image.slice data.offset data.length).toList).1
    (runPulses s rate 0 runs ++ pauseOf s pauseMs).map .start
  | b => b.beats s image

/-- Playback goes through the block to the one that follows. -/
def flows (s : Settings) (image : Image) : Block → Bool
  | .tzx ⟨_, _, .csw _ rate compression _ data⟩ =>
    compression = .runLength ∧
      (rate = 0 ∨ (runsOf (image.slice data.offset data.length).toList).2 = false)
  | .tzx ⟨_, _, .stopIf48K⟩ => !s.model.only48K
  | b => b.isPlain

end Block

namespace Tape

def between (t : Tape) (first last : Nat) : List Block :=
  (t.scan.blocks.toList.drop first).take (last - first)

def score (t : Tape) (s : Settings) (first last : Nat) : List Beat :=
  (t.between first last).flatMap (Block.sound s t.image)

variable {t : Tape} {s : Settings} {first mid last : Nat} {b : Block}

theorem between_of_le (ended : last ≤ first) : t.between first last = [] := by
  rw [between, Nat.sub_eq_zero_of_le ended, List.take_zero]

theorem between_of_lt (more : first < last) (found : t.scan.blocks[first]? = some b) :
    t.between first last = b :: t.between (first + 1) last := by
  obtain ⟨inside, rfl⟩ := Array.getElem?_eq_some_iff.1 found
  rw [between, List.drop_eq_getElem_cons (by simpa using inside),
    show last - first = last - (first + 1) + 1 by omega, List.take_succ_cons]
  rfl

theorem mem_between : b ∈ t.between first last ↔
    ∃ k, first ≤ k ∧ k < last ∧ t.scan.blocks[k]? = some b := by
  simp only [between, List.mem_iff_getElem?, List.getElem?_take, List.getElem?_drop,
    Array.getElem?_toList]
  constructor
  · rintro ⟨k, found⟩
    split at found
    · exact ⟨first + k, by omega, by omega, found⟩
    · exact nomatch found
  · rintro ⟨k, from_first, to_last, found⟩
    refine ⟨k - first, ?_⟩
    rwa [if_pos (by omega), Nat.add_sub_cancel' from_first]

theorem score_of_le (ended : last ≤ first) : t.score s first last = [] := by
  rw [score, between_of_le ended, List.flatMap_nil]

theorem score_of_lt (more : first < last) (found : t.scan.blocks[first]? = some b) :
    t.score s first last = b.sound s t.image ++ t.score s (first + 1) last := by
  rw [score, between_of_lt more found, List.flatMap_cons, score]

theorem score_append (le : first ≤ mid) (le' : mid ≤ last) :
    t.score s first mid ++ t.score s mid last = t.score s first last := by
  have parts : t.between first mid ++ t.between mid last = t.between first last := by
    rw [between, between, between, show last - first = mid - first + (last - mid) by omega,
      List.take_add, List.drop_drop, Nat.add_sub_cancel' le]
  rw [score, score, score, ← List.flatMap_append, parts]

/-- The blocks from one number up to another flow, and one of them starts an interval. -/
structure Sounds (t : Tape) (s : Settings) (first last : Nat) : Prop where
  flows : ∀ b ∈ t.between first last, b.flows s t.image
  loud : ∃ i, Beat.start i ∈ t.score s first last

theorem Sounds.lt (sounds : t.Sounds s first last) : first < last := by
  obtain ⟨i, loud⟩ := sounds.loud
  by_contra ended
  rw [score_of_le (Nat.not_lt.1 ended)] at loud
  exact List.not_mem_nil loud

theorem Sounds.exists_loud (sounds : t.Sounds s first last) :
    ∃ mid b i, first ≤ mid ∧ mid < last ∧ t.scan.blocks[mid]? = some b ∧
      .start i ∈ b.sound s t.image := by
  obtain ⟨i, loud⟩ := sounds.loud
  obtain ⟨b, member, starts⟩ := List.mem_flatMap.1 loud
  obtain ⟨mid, from_first, to_last, found⟩ := mem_between.1 member
  exact ⟨mid, b, i, from_first, to_last, found, starts⟩

end Tape

/-! ### Entering blocks that flow -/

namespace Block

variable {t : Tape} {s : Settings} {o : Nat} {b : Block}

theorem sound_of_plain {image : Image} (plain : b.isPlain) :
    b.sound s image = b.beats s image := by
  match b with
  | .tap _ => rfl
  | .tzx ⟨_, _, kind⟩ =>
    cases kind with
    | csw => exact absurd plain Bool.false_ne_true
    | _ => rfl

/-- What entering a block that flows comes to: a phase that sounds to its end, a level, or nothing,
and then the block that follows is next. -/
def Passes (s : Settings) (image : Image) (b : Block) : Prop :=
  (∃ phase is phase', Entry.ofBlock s image b = .ok (.signal phase) ∧ phase ≠ .idle ∧
      phase.Sounds s image is phase' ∧ phase'.next s image = .ok none ∧
      b.sound s image = is.map .start) ∨
    (∃ level, Entry.ofBlock s image b = .ok (.setLevel level) ∧ b.sound s image = [.set level]) ∨
    Entry.ofBlock s image b = .ok .route ∧ b.sound s image = [] ∧
      ∀ (p : Player) (x : Index), p.settings = s → p.turn x b = (.next, p.route)

theorem passes_plain (whole : t.image.Whole) (read : t.blockAt? o = .ok (some b))
    (plain : b.isPlain) : b.Passes s t.image := by
  rw [Passes, sound_of_plain plain]
  rcases enters (s := s) whole read plain with
    ⟨phase, entered, ready, under, same⟩ | set | ⟨entered, silent, on⟩
  · obtain ⟨phase', sounds, ended⟩ := ready.sounds (s := s) whole
    exact .inl ⟨phase, _, phase', entered, under, sounds, ended, same⟩
  · exact .inr (.inl set)
  · exact .inr (.inr ⟨entered, silent, fun p x _ => on p x⟩)

theorem passes_packed (whole : t.image.Whole) {offset size rate : Nat} {pauseMs : UInt16}
    {compression : Tzx.Compression} {stored : UInt32} {data : Tzx.Span}
    (is : b = .tzx ⟨offset, size, .csw pauseMs rate compression stored data⟩)
    (read : t.blockAt? o = .ok (some b)) (flows : b.flows s t.image) : b.Passes s t.image := by
  subst is
  have fits : data.stop ≤ t.image.length := Tape.payload_fits whole read data rfl
  obtain ⟨rfl, uncut⟩ := of_decide_eq_true flows
  by_cases still : rate = 0
  · have same : (Phase.pause (s.ticksOfMs pauseMs)).next s t.image =
        (Phase.pause (s.ticksOfMs pauseMs)).next s t.image := rfl
    obtain ⟨phase', silent, gone⟩ := Phase.silence_sounds whole same
    refine .inl ⟨_, _, phase', ?_, by simp, silent, gone, ?_⟩
    · simp [Entry.ofBlock, Entry.ofKind, still]
    · simp only [sound, still, if_pos, runPulses, widths, List.map_nil, List.nil_append]
      rfl
  · obtain ⟨phase', sounds, ended⟩ := Phase.packed_ends (s := s) whole fits
      (Prod.ext rfl (uncut.resolve_left still)) rate pauseMs
    refine .inl ⟨_, _, phase', Entry.ofBlock_packed (Nat.pos_of_ne_zero still), by simp, sounds,
      ended, ?_⟩
    simp [sound, still]

theorem passes (whole : t.image.Whole) (read : t.blockAt? o = .ok (some b))
    (flows : b.flows s t.image) : b.Passes s t.image := by
  match b with
  | .tap _ => exact passes_plain whole read rfl
  | .tzx ⟨offset, size, kind⟩ =>
    cases kind with
    | csw => exact passes_packed whole rfl read flows
    | stopIf48K =>
      have not48K : s.model.only48K = false := by simpa [Block.flows] using flows
      refine .inr (.inr ⟨rfl, rfl, fun p x set => ?_⟩)
      simp [Player.turn, Route.take, set, not48K]
    | _ => exact passes_plain whole read flows

end Block

namespace Player

variable {t : Tape} {x : Index} {s : Settings} {p q r : Player}
variable {n k m ordinal first mid last : Nat} {os os' : List Nat} {beats beats' : List Beat}

/-! ### Beats on a course -/

/-- A course on which these beats are heard. -/
structure Renders (t : Tape) (x : Index) (n : Nat) (p : Player) (os : List Nat) (beats : List Beat)
    (m : Nat) (q : Player) : Prop where
  course : p.Course t x n os (heard p.level beats) m q
  level : q.level = levelBehind p.level beats

theorem Renders.here : p.Renders t x n [] [] n p := ⟨.here, rfl⟩

theorem Renders.trans (one : p.Renders t x n os beats k q) (two : q.Renders t x k os' beats' m r) :
    p.Renders t x n (os ++ os') (beats ++ beats') m r where
  course := by
    rw [heard_append, ← one.level]
    exact one.course.trans two.course
  level := by rw [levelBehind_append, ← one.level, two.level]

theorem heard_ne_nil {level : Bool} {i : Interval} (member : .start i ∈ beats) :
    heard level beats ≠ [] := by
  induction beats generalizing level with
  | nil => exact absurd member List.not_mem_nil
  | cons b beats ih =>
    cases b with
    | start _ => exact List.cons_ne_nil _ _
    | set level =>
      refine ih ((List.mem_cons.1 member).resolve_left nofun)

/-! ### Turns -/

theorem Reaches.turns (h : Indexed t x) (routed : p.Routed t x s) (reaches : p.Reaches t ordinal)
    {b : Block} (found : t.scan.blocks[ordinal]? = some b)
    (entered : Entry.ofBlock s t.image b = .ok .route) {turn : Turn} {route : Route}
    (leads : ∀ offset, (p.atBlock ordinal offset b).turn x b = (turn, route)) :
    ∃ r : Player, { p with remaining := 0 }.leave.enter t x = r.follow t x turn ∧
      r.playing = true ∧ r.ordinal = ordinal ∧ r.route = route ∧ r.level = p.level := by
  obtain ⟨offset, enters⟩ := reaches.enter_eq h routed found
  simp only [entered, leads] at enters
  exact ⟨_, enters, reaches.playing, rfl, rfl, rfl⟩

theorem Reaches.turns_next (h : Indexed t x) (routed : p.Routed t x s)
    (reaches : p.Reaches t ordinal) {b : Block} (found : t.scan.blocks[ordinal]? = some b)
    (entered : Entry.ofBlock s t.image b = .ok .route) {route : Route}
    (leads : ∀ offset, (p.atBlock ordinal offset b).turn x b = (.next, route)) (n : Nat) :
    ∃ q, p.Renders t x (n + 1) [ordinal] [] n q ∧ q.Reaches t (ordinal + 1) ∧
      q.ordinal = ordinal ∧ q.phase = .done ∧ q.route = route := by
  obtain ⟨r, enters, playing, rfl, rfl, level⟩ := reaches.turns h routed found entered leads
  exact ⟨_, ⟨reaches.course enters n, level⟩, ⟨playing, rfl, rfl⟩, rfl, rfl, rfl⟩

theorem Reaches.turns_goTo (h : Indexed t x) (routed : p.Routed t x s)
    (reaches : p.Reaches t ordinal) {b : Block} (found : t.scan.blocks[ordinal]? = some b)
    (entered : Entry.ofBlock s t.image b = .ok .route) {target : Nat} {route : Route}
    (inside : target < x.count)
    (leads : ∀ offset, (p.atBlock ordinal offset b).turn x b = (.goTo target, route)) (n : Nat) :
    ∃ q, p.Renders t x (n + 1) [ordinal] [] n q ∧ q.Reaches t target ∧ q.route = route := by
  obtain ⟨r, enters, playing, -, rfl, level⟩ := reaches.turns h routed found entered leads
  simp only [follow, h.locate_eq inside] at enters
  exact ⟨_, ⟨reaches.course enters n, level⟩, ⟨playing, rfl, rfl⟩, rfl⟩

theorem Reaches.turns_finish (h : Indexed t x) (routed : p.Routed t x s)
    (reaches : p.Reaches t ordinal) {b : Block} (found : t.scan.blocks[ordinal]? = some b)
    (entered : Entry.ofBlock s t.image b = .ok .route) {route : Route}
    (leads : ∀ offset, (p.atBlock ordinal offset b).turn x b = (.finish, route)) (n : Nat) :
    ∃ q : Player, p.Renders t x (n + 1) [ordinal] [] n q.runOut := by
  obtain ⟨r, enters, -, -, -, level⟩ := reaches.turns h routed found entered leads
  exact ⟨r, ⟨reaches.course enters n, level⟩⟩

/-! ### Blocks one behind the other -/

theorem range'_of_lt (lt : mid < last) :
    List.range' mid (last - mid) = mid :: List.range' (mid + 1) (last - (mid + 1)) := by
  rw [← List.range'_succ, show last - mid = last - (mid + 1) + 1 by omega]

theorem range'_append (le : first ≤ mid) (le' : mid ≤ last) :
    List.range' first (mid - first) ++ List.range' mid (last - mid) =
      List.range' first (last - first) := by
  rw [show last - first = mid - first + (last - mid) by omega, ← List.range'_append_1,
    Nat.add_sub_cancel' le]

theorem range'_last (le : first ≤ last) :
    List.range' first (last + 1 - first) = List.range' first (last - first) ++ [last] := by
  rw [Nat.succ_sub le, List.range'_1_concat, Nat.add_sub_cancel' le]

/-- A block that flows is entered, what it does to the line is heard, and the next is reached. -/
theorem Reaches.flows (h : Indexed t x) (routed : p.Routed t x s) (reaches : p.Reaches t ordinal)
    {b : Block} (found : t.scan.blocks[ordinal]? = some b) (flows : b.flows s t.image) (n : Nat) :
    ∃ q m, p.Renders t x (n + 1) [ordinal] (b.sound s t.image) m q ∧
      (heard p.level (b.sound s t.image) ≠ [] → m = walkLimit) ∧ q.Reaches t (ordinal + 1) ∧
      q.route = p.route := by
  obtain ⟨-, read, -⟩ := h.read_of_found found
  rcases Block.passes (s := s) h.whole read flows with
    ⟨phase, is, phase', entered, under, sounds, ended, same⟩ | ⟨level, entered, same⟩ |
      ⟨entered, silent, on⟩
  · obtain ⟨q, m, course, budget, still, set, here, comes, level, route⟩ :=
      reaches.sounds h routed found entered sounds n
    rw [same]
    refine ⟨q, m, ⟨course, level⟩, fun loud => ?_, ?_, route⟩
    · rw [budget, if_neg]
      rintro rfl
      exact loud rfl
    · rw [← here]
      exact reaches_next still (comes ▸ sounds.ne_idle under) (by rw [comes, set]; exact ended)
  · obtain ⟨offset, enters⟩ := reaches.enter_eq h routed found
    simp only [entered] at enters
    rw [same]
    exact ⟨_, n, ⟨reaches.course enters n, rfl⟩, fun loud => absurd rfl loud,
      reaches_next reaches.playing nofun rfl, rfl⟩
  · rw [silent]
    obtain ⟨q, renders, next, -, -, route⟩ := reaches.turns_next h routed found entered
      (fun _ => on _ x routed.framed.settings) n
    exact ⟨q, n, renders, fun loud => absurd rfl loud, next, route⟩

/-- Blocks that flow are entered in order, and their score is heard. -/
theorem Reaches.flow (h : Indexed t x) (routed : p.Routed t x s) (reaches : p.Reaches t first)
    (flows : ∀ b ∈ t.between first last, b.flows s t.image) (le : first ≤ last)
    (inside : last ≤ x.count) (enough : last - first ≤ n) (small : n ≤ walkLimit) :
    ∃ q m, p.Renders t x n (List.range' first (last - first)) (t.score s first last) m q ∧
      q.Reaches t last ∧ q.route = p.route := by
  generalize length : last - first = d at enough ⊢
  induction d generalizing p first n with
  | zero =>
    obtain rfl : first = last := by omega
    rw [Tape.score_of_le (Nat.le_refl _)]
    exact ⟨p, n, .here, reaches, rfl⟩
  | succ d ih =>
    obtain ⟨n, rfl⟩ := Nat.exists_eq_add_one_of_ne_zero (show n ≠ 0 by omega)
    have more : first < last := by omega
    obtain ⟨b, found, -⟩ := h.read (show first < x.count by omega)
    rw [Tape.between_of_lt more found] at flows
    obtain ⟨q, m, renders, -, next, route⟩ :=
      reaches.flows h routed found (flows b List.mem_cons_self) n
    obtain ⟨budget, most⟩ := renders.course.budget small
    rw [List.length_singleton] at budget
    obtain ⟨r, m', onward, there, route'⟩ := ih (renders.course.routed h routed) next
      (fun b member => flows b (List.mem_cons_of_mem _ member)) more most (by omega) (by omega)
    refine ⟨r, m', ?_, there, route'.trans route⟩
    rw [Tape.score_of_lt more found]
    exact renders.trans onward

/-- Where one of the blocks starts an interval, the walk has to last only so far, and behind them it
may enter all blocks but those that follow the interval. -/
theorem Reaches.flow_loud (h : Indexed t x) (routed : p.Routed t x s) (reaches : p.Reaches t first)
    (flows : ∀ b ∈ t.between first last, b.flows s t.image) {b : Block} {i : Interval}
    (le : first ≤ mid) (lt : mid < last) (found : t.scan.blocks[mid]? = some b)
    (loud : .start i ∈ b.sound s t.image) (inside : last ≤ x.count) (few : x.count ≤ walkLimit)
    (enough : mid - first < n) (small : n ≤ walkLimit) :
    ∃ q m, p.Renders t x n (List.range' first (last - first)) (t.score s first last) m q ∧
      q.Reaches t last ∧ q.route = p.route ∧ walkLimit ≤ m + (last - (mid + 1)) := by
  have flows' : ∀ b ∈ t.between first mid, b.flows s t.image := fun b member => by
    obtain ⟨k, from_first, to_mid, found⟩ := Tape.mem_between.1 member
    exact flows b (Tape.mem_between.2 ⟨k, from_first, Nat.lt_trans to_mid lt, found⟩)
  have flows'' : ∀ b ∈ t.between (mid + 1) last, b.flows s t.image := fun b member => by
    obtain ⟨k, from_mid, to_last, found⟩ := Tape.mem_between.1 member
    exact flows b (Tape.mem_between.2 ⟨k, by omega, to_last, found⟩)
  obtain ⟨q₁, m₁, front, here, route₁⟩ :=
    reaches.flow h routed flows' le (by omega) (Nat.le_of_lt enough) small
  obtain ⟨budget, most⟩ := front.course.budget small
  rw [List.length_range'] at budget
  obtain ⟨m₁, rfl⟩ := Nat.exists_eq_add_one_of_ne_zero (show m₁ ≠ 0 by omega)
  have routed₁ := front.course.routed h routed
  obtain ⟨q₂, m₂, sounds, full, next, route₂⟩ := here.flows h routed₁ found
    (flows b (Tape.mem_between.2 ⟨mid, le, lt, found⟩)) m₁
  obtain rfl := full (heard_ne_nil loud)
  obtain ⟨q₃, m₃, back, there, route₃⟩ := next.flow h (sounds.course.routed h routed₁) flows'' lt
    inside (by omega) (Nat.le_refl _)
  obtain ⟨left, -⟩ := back.course.budget (Nat.le_refl _)
  rw [List.length_range'] at left
  refine ⟨q₃, m₃, ?_, there, route₃.trans (route₂.trans route₁), left⟩
  have whole := front.trans (sounds.trans back)
  rwa [List.singleton_append, ← range'_of_lt lt, range'_append le (Nat.le_of_lt lt),
    ← Tape.score_of_lt lt found, Tape.score_append le (Nat.le_of_lt lt)] at whole

end Player

end Cassette
