import Cassette.Proofs.Driving

/-! Which way up a tape sounds. Pulses invert the level, so players that are in step and have
opposite levels keep them opposite, and both change at the start of every pulse. A pause sets the
level low: where the first one starts, only the player changes whose level was high, and from there
on they are alike (`changes_pause`). On a tape that has no other means to set the level there are
only pulses and pauses: a step lemma for blocks that are entered (`enter_unset`), and run lemmas for
walks, calls and whatever else a player is told. Main statement: `changes_opposite`. -/

namespace Cassette

/-- The block holds levels for the line: one to be set, or samples of it. -/
def Block.setsLevel : Block → Bool
  | .tzx ⟨_, _, .signalLevel _⟩ | .tzx ⟨_, _, .directRecording ..⟩ => true
  | _ => false

namespace Signal

/-! ### Beats -/

/-- When the level changes, by what is done to the line from a level on. -/
def changes : (level : Bool) → List (Nat × Beat) → List Nat
  | _, [] => []
  | level, (clock, b) :: rest =>
    if b.apply level = level then changes level rest else clock :: changes (b.apply level) rest

def Beat.Plain (b : Beat) : Prop := b.isPulse = true ∨ ∃ ticks, b = .start ⟨.set false, ticks⟩

variable {bs bs' : List (Nat × Beat)}

theorem changes_append (level : Bool) (bs bs' : List (Nat × Beat)) :
    changes level (bs ++ bs') =
      changes level bs ++ changes (levelBehind level (bs.map Prod.snd)) bs' := by
  induction bs generalizing level with
  | nil => rfl
  | cons b bs ih =>
    obtain ⟨clock, b⟩ := b
    rw [List.cons_append, changes, changes, List.map_cons, levelBehind_cons]
    split
    · next same => rw [ih, same]
    · rw [ih, List.cons_append]

theorem Beat.apply_of_isPulse {b : Beat} (isPulse : b.isPulse = true) (level : Bool) :
    b.apply level = !level := by
  rcases b with ⟨flip | set, ticks⟩ | set
  · rfl
  · exact nomatch isPulse
  · exact nomatch isPulse

theorem changes_pulses (pulses : ∀ b ∈ bs, b.2.isPulse = true) (level : Bool) :
    changes level bs = bs.map Prod.fst := by
  induction bs generalizing level with
  | nil => rfl
  | cons b bs ih =>
    obtain ⟨first, rest⟩ := List.forall_mem_cons.1 pulses
    rw [changes, Beat.apply_of_isPulse first, if_neg (Bool.not_ne_self level), ih rest]
    rfl

theorem levelBehind_not (pulses : ∀ b ∈ bs, b.2.isPulse = true) (level : Bool) :
    levelBehind (!level) (bs.map Prod.snd) = !levelBehind level (bs.map Prod.snd) := by
  induction bs generalizing level with
  | nil => rfl
  | cons b bs ih =>
    obtain ⟨first, rest⟩ := List.forall_mem_cons.1 pulses
    rw [List.map_cons, levelBehind_cons, levelBehind_cons, Beat.apply_of_isPulse first,
      Beat.apply_of_isPulse first, ih rest]

/-- Behind pulses a pause is a change if the level is high there, and then it is low. -/
theorem changes_pause (pulses : ∀ b ∈ bs, b.2.isPulse = true) (level : Bool)
    (clock ticks : Nat) (bs' : List (Nat × Beat)) :
    changes level (bs ++ (clock, .start ⟨.set false, ticks⟩) :: bs') =
      bs.map Prod.fst ++ (if levelBehind level (bs.map Prod.snd) then [clock] else []) ++
        changes false bs' := by
  rw [changes_append, changes_pulses pulses, changes, List.append_assoc]
  cases levelBehind level (bs.map Prod.snd) <;> rfl

theorem levelBehind_pause (level level' : Bool) (clock ticks : Nat) :
    levelBehind level ((bs ++ (clock, .start ⟨.set false, ticks⟩) :: bs').map Prod.snd) =
      levelBehind level' ((bs ++ (clock, .start ⟨.set false, ticks⟩) :: bs').map Prod.snd) := by
  rw [List.map_append, levelBehind_append, levelBehind_append]
  rfl

/-- If there are only pulses and pauses, then there are only pulses, or there is a first pause. -/
theorem pulses_or_pause (plain : ∀ b ∈ bs, b.2.Plain) :
    (∀ b ∈ bs, b.2.isPulse = true) ∨ ∃ front clock ticks back,
      bs = front ++ (clock, .start ⟨.set false, ticks⟩) :: back ∧
        ∀ b ∈ front, b.2.isPulse = true := by
  induction bs with
  | nil => exact .inl nofun
  | cons b bs ih =>
    obtain ⟨first, rest⟩ := List.forall_mem_cons.1 plain
    obtain ⟨clock, b⟩ := b
    rcases first with pulse | ⟨ticks, rfl⟩
    · rcases ih rest with pulses | ⟨front, clock', ticks, back, rfl, pulses⟩
      · exact .inl (List.forall_mem_cons.2 ⟨pulse, pulses⟩)
      · exact .inr ⟨(clock, b) :: front, clock', ticks, back, rfl,
          List.forall_mem_cons.2 ⟨pulse, pulses⟩⟩
    · exact .inr ⟨[], clock, ticks, bs, rfl, nofun⟩

/-! ### Phases -/

def Phase.isSampled : Phase → Bool
  | .samples .. => true
  | _ => false

variable {s : Settings} {image : Image} {phase rest : Phase} {i : Interval} {b : Block}

theorem takePause_plain {ticks : Nat} (taken : Phase.takePause ticks = some (i, rest)) :
    (Beat.start i).Plain ∧ rest.isSampled = false := by
  unfold Phase.takePause at taken
  split at taken
  · exact nomatch taken
  · obtain ⟨rfl, rfl⟩ := Prod.mk.inj (Option.some.inj taken)
    exact ⟨.inr ⟨ticks, rfl⟩, rfl⟩

theorem Phase.next_plain (unsampled : phase.isSampled = false)
    (next : phase.next s image = .ok (some (i, rest))) :
    (Beat.start i).Plain ∧ rest.isSampled = false := by
  have given {j : Interval} {on : Phase} (plain : (Beat.start j).isPulse = true)
      (unsampled : on.isSampled = false)
      (next : (.ok (some (j, on)) : Except Fault _) = .ok (some (i, rest))) :
      (Beat.start i).Plain ∧ rest.isSampled = false := by
    obtain ⟨rfl, rfl⟩ := Prod.mk.inj (Option.some.inj (Except.ok.inj next))
    exact ⟨.inl plain, unsampled⟩
  cases phase with
  | idle | done => exact nomatch next
  | sync2 => exact given rfl rfl next
  | pilot _ left => cases left <;> exact given rfl rfl next
  | tone _ left =>
    cases left with
    | zero => exact nomatch next
    | succ left => exact given rfl rfl next
  | pulses widths =>
    cases widths with
    | nil => exact nomatch next
    | cons width widths => exact given rfl rfl next
  | samples => exact nomatch unsampled
  | pause ticks => exact takePause_plain (Except.ok.inj next)
  | data c | runs c =>
    obtain ⟨found, -, next⟩ := bind_eq_ok_iff.1 next
    cases found with
    | none => exact takePause_plain (Except.ok.inj next)
    | some _ => exact given rfl rfl next

def Entry.setsLevel : Entry → Bool
  | .setLevel _ => true
  | .signal phase => phase.isSampled
  | .halt | .route => false

theorem Entry.ofBlock_unset (unset : b.setsLevel = false) {entry : Entry}
    (entered : Entry.ofBlock s image b = .ok entry) : entry.setsLevel = false := by
  cases b with
  | tap block =>
    simp only [Entry.ofBlock] at entered
    split at entered <;> exact Except.ok.inj entered ▸ rfl
  | tzx block =>
    obtain ⟨offset, size, kind⟩ := block
    cases kind with
    | signalLevel | directRecording => cases unset
    | standardSpeed pauseMs data =>
      simp only [Entry.ofBlock, Entry.ofKind] at entered
      split at entered
      · exact Except.ok.inj entered ▸ rfl
      · obtain ⟨flag, -, entered⟩ := bind_eq_ok_iff.1 entered
        exact Except.ok.inj entered ▸ rfl
    | csw pauseMs rate compression stored data =>
      simp only [Entry.ofBlock, Entry.ofKind] at entered
      split at entered
      · cases entered
      · split at entered <;> exact Except.ok.inj entered ▸ rfl
    | pause ms =>
      simp only [Entry.ofBlock, Entry.ofKind] at entered
      split at entered <;> exact Except.ok.inj entered ▸ rfl
    | _ => exact Except.ok.inj entered ▸ rfl

end Signal

open Signal

namespace Player

variable {t : Tape} {x : Index} {s : Settings} {p q p' : Player} {budget fuel clock left : Nat}

/-! ### Playing without levels -/

theorem follow_unsampled (unsampled : p.phase.isSampled = false) (turn : Turn) :
    (p.follow t x turn).1.phase.isSampled = false := by
  cases turn with
  | next | finish => rfl
  | goTo target =>
    rw [follow]
    cases x.locate t target with
    | error fault => exact unsampled
    | ok offset => rfl
  | stop => exact congrArg Phase.isSampled (haltAfter_phase p x.count)

section Unset

variable (h : Indexed t x) (unset : ∀ b ∈ t.scan.blocks, b.setsLevel = false)
include h unset

/-- No block that is entered sets the level or plays samples. -/
theorem enter_unset (standing : p.Standing t x) (unsampled : p.phase.isSampled = false) :
    (p.enter t x).1.phase.isSampled = false ∧ p.entryBeats t x = [] := by
  unfold enter entryBeats
  split
  · exact ⟨rfl, rfl⟩
  · next inside =>
    obtain ⟨b, found, read, -⟩ := h.read (Nat.not_le.1 inside)
    rw [← standing.offset] at read
    simp only [read]
    cases entered : Entry.ofBlock p.settings t.image b with
    | error fault => exact ⟨unsampled, rfl⟩
    | ok entry =>
      have quiet := Entry.ofBlock_unset (unset b (Array.mem_of_getElem? found)) entered
      cases entry with
      | signal phase => exact ⟨quiet, rfl⟩
      | halt => exact ⟨congrArg Phase.isSampled (haltAfter_phase _ x.count), rfl⟩
      | setLevel level => exact nomatch quiet
      | route => exact ⟨follow_unsampled (by exact unsampled) _, rfl⟩

/-- A walk does nothing to the line but start a pulse or a pause. -/
theorem walk_unset (standing : p.Standing t x) (unsampled : p.phase.isSampled = false)
    (budget : Nat) :
    (walk t x budget p).1.phase.isSampled = false ∧ ∀ b ∈ walkBeats t x budget p, b.Plain := by
  have front (p : Player) : p.leave.phase.isSampled = false := congrArg Phase.isSampled leave_idle
  fun_induction walk t x budget p with
  | case1 budget p playing fault failed =>
    rw [walkBeats_fault playing failed]
    exact ⟨rfl, List.forall_mem_nil _⟩
  | case2 budget p playing i rest next =>
    obtain ⟨plain, unsampled⟩ := Phase.next_plain unsampled next
    rw [walkBeats_start playing next]
    exact ⟨unsampled, List.forall_mem_singleton.2 plain⟩
  | case3 p playing ended =>
    rw [walkBeats_spent playing ended]
    exact ⟨front p, List.forall_mem_nil _⟩
  | case4 p playing ended budget q fault failed =>
    obtain ⟨entered, silent⟩ := enter_unset h unset (standing.leave h) (front p)
    rw [failed] at entered
    rw [walkBeats_refused playing ended failed, silent]
    exact ⟨entered, List.forall_mem_nil _⟩
  | case5 p playing ended budget q went ih =>
    obtain ⟨entered, silent⟩ := enter_unset h unset (standing.leave h) (front p)
    have on := (enter_sound h (standing.leave h) leave_idle).1
    rw [went] at entered on
    rw [walkBeats_enter playing ended went, silent]
    exact ih on entered
  | case6 budget p stopped =>
    rw [walkBeats_stopped stopped]
    exact ⟨unsampled, List.forall_mem_nil _⟩

theorem spend_unset (standing : p.Standing t x) (unsampled : p.phase.isSampled = false)
    {r : Except Fault Nat} (spent : spend t x fuel p left = some (q, r)) (clock : Nat) :
    q.phase.isSampled = false ∧ ∀ b ∈ spendBeats t x fuel p clock left, b.2.Plain := by
  induction fuel generalizing p left clock with
  | zero => exact nomatch spent
  | succ fuel ih =>
    have paused := standing.paused 0 p.playing
    have on := (walk_sound h walkLimit paused).1
    obtain ⟨walked, plain⟩ := walk_unset h unset paused unsampled walkLimit
    have first : ∀ b ∈ (walkBeats t x walkLimit { p with remaining := 0 }).map
        (clock + p.remaining, ·), b.2.Plain := List.forall_mem_map.2 plain
    cases spend_cases spent with
    | stopped stopped =>
      rw [spendBeats_stopped stopped]
      exact ⟨unsampled, List.forall_mem_nil _⟩
    | early playing early =>
      rw [spendBeats_early early]
      exact ⟨unsampled, List.forall_mem_nil _⟩
    | fault playing late failed =>
      rw [← startInterval, failed] at walked
      rw [spendBeats_late playing late, failed]
      exact ⟨walked, List.forall_mem_append.2 ⟨first, List.forall_mem_nil _⟩⟩
    | edge playing late went spent =>
      rw [← startInterval, went] at walked on
      rw [spendBeats_late playing late, went]
      obtain ⟨unsampled, rest⟩ := ih on walked spent (clock + p.remaining)
      exact ⟨unsampled, List.forall_mem_append.2 ⟨first, rest⟩⟩

theorem Reachable.unsampled (reachable : Reachable t x s p) : p.phase.isSampled = false := by
  induction reachable with
  | new | rewind _ _ | seek _ _ _ => rfl
  | play _ ih | stop _ ih => exact ih
  | advance reachable advanced ih =>
    obtain ⟨_, spent, -⟩ := advance_eq_some_iff.1 advanced
    exact (spend_unset h unset (reachable.standing h) ih spent 0).1

variable {acts : List Act} {answers : List (Except Fault Nat)} {beats : List (Nat × Beat)}

theorem Drives.plain (reachable : Reachable t x s p)
    (drives : p.Drives t x clock acts answers beats q) : ∀ b ∈ beats, b.2.Plain := by
  induction drives with
  | done => exact nofun
  | play _ ih => exact ih reachable.play
  | stop _ ih => exact ih reachable.stop
  | rewind _ ih => exact ih reachable.rewind
  | seek inside _ ih => exact ih (reachable.seek inside)
  | @advance clock _ _ _ _ _ _ _ _ _ advanced _ ih =>
    obtain ⟨_, spent, -⟩ := advance_eq_some_iff.1 advanced
    obtain ⟨-, plain⟩ := spend_unset h unset (reachable.standing h)
      (reachable.unsampled h unset) spent clock
    exact List.forall_mem_append.2 ⟨plain, ih (reachable.advance advanced)⟩

end Unset

/-- On a tape on which only pulses and pauses make the level, players in step that have opposite
levels give the same answers and start the same intervals at the same times. Until a pause starts
they have opposite levels and change them at the same times. Where the first pause starts, just
the one changes its level that has it high, and from there on they do not differ any more. -/
theorem changes_opposite (h : Indexed t x) (unset : ∀ b ∈ t.scan.blocks, b.setsLevel = false)
    (reachable : Reachable t x s p) (inStep : p.InStep q) (opposite : q.level = !p.level)
    {acts : List Act} {answers : List (Except Fault Nat)} {beats : List (Nat × Beat)}
    (drives : p.Drives t x clock acts answers beats p') :
    ∃ q', q.Drives t x clock acts answers beats q' ∧ p'.InStep q' ∧
      ((∀ b ∈ beats, b.2.isPulse = true) ∧ q'.level = !p'.level ∧
          changes p.level beats = beats.map Prod.fst ∧
          changes q.level beats = beats.map Prod.fst ∨
        ∃ front paused ticks back, beats = front ++ (paused, .start ⟨.set false, ticks⟩) :: back ∧
          (∀ b ∈ front, b.2.isPulse = true) ∧ q'.level = p'.level ∧
          let high := levelBehind p.level (front.map Prod.snd)
          changes p.level beats =
            front.map Prod.fst ++ (if high then [paused] else []) ++ changes false back ∧
          changes q.level beats =
            front.map Prod.fst ++ (if high then [] else [paused]) ++ changes false back) := by
  obtain ⟨q', drives', stays⟩ := inStep.drives drives
  refine ⟨q', drives', stays, ?_⟩
  rw [drives.level, drives'.level, opposite]
  -- Both do the same to the line, so the first pause is the same for both, if there is one.
  rcases pulses_or_pause (drives.plain h unset reachable) with
    pulses | ⟨front, paused, ticks, back, rfl, pulses⟩
  · exact .inl ⟨pulses, levelBehind_not pulses p.level, changes_pulses pulses _,
      changes_pulses pulses _⟩
  · refine .inr ⟨front, paused, ticks, back, rfl, pulses, levelBehind_pause _ _ _ _, ?_, ?_⟩
    · exact changes_pause pulses _ _ _ _
    · rw [changes_pause pulses, levelBehind_not pulses]
      cases levelBehind p.level (front.map Prod.snd) <;> rfl

/-- A new player, and one that was stopped in a pulse and rewound: a pulse, a pause, and another
pulse are played. -/
theorem changes_opposite_rewound :
    let t : Tape := ⟨.tzx, .ofBytes (Tzx.magic ++ #[1, 20, 0x12, 100, 0, 1, 0, 0x20, 1, 0, 0x12,
      100, 0, 1, 0]), some (1, 20)⟩
    let x : Index := ⟨#[10], 3⟩
    let p := new .standard 10
    let q := { p with level := true, head := 15 }
    let p' := { p with
      ordinal := 2, offset := 18, behind := 23, phase := .tone 100 0, level := true,
      remaining := 50, playing := true, head := 23 }
    let beats : List (Nat × Beat) :=
      [(0, .start (pulse 100)), (100, .start ⟨.set false, 3500⟩), (3600, .start (pulse 100))]
    Indexed t x ∧ (∀ b ∈ t.scan.blocks, b.setsLevel = false) ∧ Reachable t x .standard p ∧
      p.InStep q ∧ q.level = !p.level ∧
      p.Drives t x 0 [.play, .advance 3650] [.ok 3650] beats p' ∧
      ∃ q', q.Drives t x 0 [.play, .advance 3650] [.ok 3650] beats q' ∧ q'.level = p'.level := by
  intro t x p q p' beats
  have indexed : Indexed t x := ⟨rfl, by decide +kernel⟩
  have unset : ∀ b ∈ t.scan.blocks, b.setsLevel = false := by decide +kernel
  have inStep : p.InStep q := ⟨⟨rfl, rfl, rfl, rfl, fun _ => rfl, rfl, rfl, rfl⟩, rfl, rfl⟩
  have advanced : p.play.advance t x 5 3650 = some (p', .ok 3650) := by decide +kernel
  have done : spendBeats t x 5 p.play 0 3650 ++ [] = beats := by decide +kernel
  have drives : p.Drives t x 0 [.play, .advance 3650] [.ok 3650] beats p' :=
    .play (done ▸ .advance advanced .done)
  obtain ⟨q', drives', -, alike⟩ := changes_opposite indexed unset .new inStep rfl drives
  refine ⟨indexed, unset, .new, inStep, rfl, drives, q', drives', ?_⟩
  rcases alike with ⟨pulses, -⟩ | ⟨_, _, _, _, -, -, same, -⟩
  · exact absurd (pulses _ (.tail _ (.head _))) Bool.false_ne_true
  · exact same

/-- A new player and one that was stopped in a pulse and rewound, on a tape with a pulse and a
pause: where the pulse ends, the level changes for the one, but for the other it is low already. -/
theorem changes_differ :
    let t : Tape := ⟨.tzx, .ofBytes (Tzx.magic ++ #[1, 20, 0x12, 100, 0, 1, 0, 0x20, 1, 0]),
      some (1, 20)⟩
    let x : Index := ⟨#[10], 2⟩
    let p := new .standard 10
    let q := { p with level := true, head := 15 }
    Indexed t x ∧ (∀ b ∈ t.scan.blocks, b.setsLevel = false) ∧ Reachable t x .standard p ∧
      Reachable t x .standard q ∧ p.InStep q ∧ q.level = !p.level ∧
      ∃ beats p' q', p.Drives t x 0 [.play, .advance 150] [.ok 150] beats p' ∧
        q.Drives t x 0 [.play, .advance 150] [.ok 150] beats q' ∧
        changes p.level beats = [0, 100] ∧ changes q.level beats = [0] := by
  intro t x p q
  have indexed : Indexed t x := ⟨rfl, by decide +kernel⟩
  have unset : ∀ b ∈ t.scan.blocks, b.setsLevel = false := by decide +kernel
  have inStep : p.InStep q := ⟨⟨rfl, rfl, rfl, rfl, fun _ => rfl, rfl, rfl, rfl⟩, rfl, rfl⟩
  let middle : Player := { p.play with
    behind := 15, phase := .tone 100 0, level := true, remaining := 50, head := 15 }
  let last : Player := { p.play with
    ordinal := 1, offset := 15, behind := 18, phase := .done, remaining := 3450, head := 18 }
  have begun : p.play.advance t x 2 50 = some (middle, .ok 50) := by decide +kernel
  have reachable : Reachable t x .standard q := .rewind (.stop (.advance (.play .new) begun))
  have advanced : p.play.advance t x 3 150 = some (last, .ok 150) := by decide +kernel
  have drives : p.Drives t x 0 [.play, .advance 150] [.ok 150]
      (spendBeats t x 3 p.play 0 150 ++ []) last := .play (.advance advanced .done)
  obtain ⟨q', drives', -⟩ := inStep.drives drives
  refine ⟨indexed, unset, .new, reachable, inStep, rfl, _, last, q', drives, drives', ?_⟩
  decide +kernel

end Player

end Cassette
