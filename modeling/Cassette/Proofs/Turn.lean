import Cassette.Route

/-! Turns stay on the tape. The frames of a route are inside a tape when the blocks they
lead back to exist (`Route.Inside`). Main statement: `Route.take_sound`, no block leads
anywhere else; only a loop that the last block opens has no block behind its start. -/

namespace Cassette

namespace Route

/-- The open loop has a block to go back to, and so has the open call. -/
structure Inside (r : Route) (count : Nat) : Prop where
  loop : ∀ frame, r.loop? = some frame → frame.start + 1 < count
  call : ∀ frame, r.call? = some frame → frame.caller < count

/-- What a turn comes to: it leads to a block, and the route it leaves is inside, but for a
loop that the last block opens. -/
structure Sound (ordinal count : Nat) (turn : Turn) (r : Route) : Prop where
  goTo : ∀ target, turn = .goTo target → target < count
  loop : ∀ frame, r.loop? = some frame →
    frame.start + 1 < count ∨ turn = .next ∧ frame.start = ordinal
  call : ∀ frame, r.call? = some frame → frame.caller < count

variable {r : Route} {ordinal count : Nat}

theorem Inside.sound (h : r.Inside count) {turn : Turn}
    (goTo : ∀ target, turn = .goTo target → target < count) : Sound ordinal count turn r :=
  ⟨goTo, fun frame open_ => .inl (h.loop frame open_), h.call⟩

theorem onTo_lt {target other : Nat} (h : Turn.onTo target count = .goTo other) :
    other < count := by
  simp only [Turn.onTo] at h
  split at h
  · simp at h
  · next inside =>
    obtain rfl : target = other := by simpa using h
    exact Nat.not_le.1 inside

theorem closeLoop_sound (h : r.Inside count) :
    Sound ordinal count r.closeLoop.1 r.closeLoop.2 := by
  cases opened : r.loop? with
  | none =>
    simp only [closeLoop, opened]
    exact h.sound nofun
  | some frame =>
    simp only [closeLoop, opened]
    split
    · exact ⟨nofun, nofun, h.call⟩
    · refine ⟨?_, ?_, h.call⟩
      · rintro target ⟨⟩
        exact h.loop frame opened
      · rintro frame' ⟨⟩
        exact .inl (h.loop frame opened)

theorem call_sound (h : r.Inside count) (inside : ordinal < count) (displacements : List Int16) :
    Sound ordinal count (r.call ordinal count displacements).1
      (r.call ordinal count displacements).2 := by
  simp only [call]
  split
  · exact ⟨nofun, fun frame open_ => .inl (h.loop frame open_), nofun⟩
  · refine ⟨fun target leads => onTo_lt leads, fun frame open_ => .inl (h.loop frame open_), ?_⟩
    rintro frame ⟨⟩
    exact inside

theorem comeBack_sound (h : r.Inside count) :
    Sound ordinal count (r.comeBack count).1 (r.comeBack count).2 := by
  cases opened : r.call? with
  | none =>
    simp only [comeBack, opened]
    exact h.sound nofun
  | some frame =>
    simp only [comeBack, opened]
    split
    · refine h.sound ?_
      rintro target ⟨⟩
      exact h.call frame opened
    · exact ⟨fun target leads => onTo_lt leads, fun frame open_ => .inl (h.loop frame open_), nofun⟩

/-- Whatever a block does to playback, it leads to blocks of the tape. -/
theorem take_sound {δ τ : Type} (h : r.Inside count) (inside : ordinal < count)
    (kind : Tzx.Kind δ τ) (only48K : Bool) :
    Sound ordinal count (r.take ordinal kind count only48K).1
      (r.take ordinal kind count only48K).2 := by
  cases kind with
  | jump displacement =>
    refine h.sound fun target leads => ?_
    simp only [take] at leads
    split at leads
    · simp at leads
    · exact onTo_lt leads
  | loopStart repetitions =>
    refine ⟨nofun, ?_, h.call⟩
    rintro frame ⟨⟩
    exact .inr ⟨rfl, rfl⟩
  | loopEnd => exact closeLoop_sound h
  | callSequence displacements => exact call_sound h inside displacements
  | callReturn => exact comeBack_sound h
  | stopIf48K =>
    refine h.sound fun target leads => ?_
    simp only [take] at leads
    split at leads <;> simp at leads
  | _ => exact h.sound nofun

end Route

end Cassette
