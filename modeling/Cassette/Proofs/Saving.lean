import Cassette.Proofs.Dubbing
import Cassette.Proofs.Operating

/-! Where recorded blocks go. A `Ledger` follows operations from an empty deck and keeps account
of the blocks that ended on the way and of those that left the queue, into a file or to whoever
took them. Any blocks can come to be in the queue (`Ledger.records`). Main statement:
`Ledger.saved_or_kept`, a save adds the whole queue to the file, or it leaves file and queue as
they were, unless a block is too long for a frame; and if none ever was, every block that ended
has left the queue once or is still in it. -/

namespace Cassette.Deck

/-! ### Accounts -/

def Op.ended (d : Deck) : Op → List Bytes
  | .send level tick => if d.isRecording then (d.recorder.edge level tick).1.toList else []
  | .quiet tick => (d.recorder.quiet tick).1.toList
  | .takeRecordings | .saveRecordings => d.recorder.finish.1.toList
  | _ => []

/-- The blocks that a save has put into the file of the tape, read off the bytes. -/
inductive Puts (s : Store) (d : Deck) : List Bytes → Store → Prop
  | nothing : Puts s d [] s
  | frames {i : Inserted} {blocks : List Bytes} {written : Bytes} (inserted : d.tape = some i)
      (framed : Tap.frames blocks = (written, .ok ())) :
    Puts s d blocks (s.overwrite i.object (s.contents i.object ++ written))

/-- The blocks that leave the queue in an operation. -/
def Op.Gives (s : Store) (d : Deck) (s' : Store) (blocks : List Bytes) : Op → Prop
  | .takeRecordings => blocks = d.takeRecordings.2
  | .saveRecordings => Puts s d blocks s'
  | _ => blocks = []

/-- The files and decks that operations lead to, with the blocks that ended in all of them and
those that left the queue. -/
inductive Ledger : Store → Deck → (ended given : List Bytes) → Prop
  | new (s : Store) (settings : Settings) : Ledger s (.new settings) [] []
  | next {s s' : Store} {d d' : Deck} {ended given blocks : List Bytes} (op : Op)
      (h : Ledger s d ended given) (ran : op.run s d = some (s', d'))
      (gives : op.Gives s d s' blocks) : Ledger s' d' (ended ++ op.ended d) (given ++ blocks)

variable {s s' : Store} {d d' : Deck} {i : Inserted} {op : Op}
  {blocks blocks' ended given : List Bytes}

theorem Ledger.reachable (ledger : Ledger s d ended given) : Reachable s d := by
  induction ledger with
  | new s settings => exact .new s settings
  | next op _ ran _ ih => exact .next op ih ran

theorem Puts.grown (puts : Puts s d blocks s') (inserted : d.tape = some i)
    (there : i.object < s.objects.size) :
    ∃ written, Tap.frames blocks = (written, .ok ()) ∧
      s'.contents i.object = s.contents i.object ++ written := by
  cases puts with
  | nothing => exact ⟨#[], rfl, Array.append_empty.symm⟩
  | frames inserted' framed =>
    obtain rfl := Option.some.inj (inserted.symm.trans inserted')
    exact ⟨_, framed, Store.contents_overwrite there⟩

theorem Puts.eq_nil (puts : Puts s d blocks s') (none : d.tape = none) : blocks = [] := by
  cases puts with
  | nothing => rfl
  | frames inserted _ => exact nomatch none.symm.trans inserted

/-- The bytes of the file tell which blocks were put into it. -/
theorem Puts.unique (sound : d.Sound s) (puts : Puts s d blocks s') (puts' : Puts s d blocks' s') :
    blocks = blocks' := by
  cases inserted : d.tape with
  | none => rw [puts.eq_nil inserted, puts'.eq_nil inserted]
  | some i =>
    obtain ⟨x, holds⟩ := sound i inserted
    obtain ⟨written, framed, grown⟩ := puts.grown inserted holds.there
    obtain ⟨written', framed', grown'⟩ := puts'.grown inserted holds.there
    obtain rfl := (Array.append_right_inj _).1 (grown.symm.trans grown')
    exact Tape.frames_inj framed framed'

/-! ### The queue -/

theorem queue_eq (d : Deck) : d.queue = d.recordings ++ d.recorder.endBlock.1.toList := rfl

/-- What is ended for a save is in the queue, and nothing is being heard any more. -/
theorem queue_finished (d : Deck) : (d.listen Recorder.finish).queue = d.queue := by
  have heard : (d.listen Recorder.finish).recorder.endBlock.1 = none := rfl
  rw [queue_eq, heard, Option.toList_none, List.append_nil]
  rfl

theorem edit_recordings {α : Type} (f : Inserted → Index → Store × Inserted × Except Fault α) :
    (d.edit s f).2.1.recordings = d.recordings := by
  rw [edit]
  cases d.tape with
  | none => rfl
  | some i =>
    by_cases locked : i.writeProtected
    · simp only [if_pos locked]
    · simp only [if_neg locked]
      split <;> rfl

theorem onTape_recordings {α : Type} (f : Inserted → Index → Inserted × Except Fault α) :
    (d.onTape s f).1.recordings = d.recordings := by
  rw [onTape]
  cases d.tape with
  | none => rfl
  | some i =>
    simp only
    split <;> rfl

theorem insertKnown_recordings (path : String) (format : Format) :
    (d.insertKnown s path format).1.recordings = d.recordings := by
  rw [insertKnown]
  split <;> rfl

theorem advance_recordings {edges ticks : Nat} {r : Except Fault Nat}
    (advanced : d.advance s edges ticks = some (d', r)) : d'.recordings = d.recordings := by
  rw [Deck.advance] at advanced
  cases inserted : d.tape with
  | none =>
    rw [inserted] at advanced
    obtain ⟨rfl, -⟩ := Prod.mk.inj (Option.some.inj advanced)
    rfl
  | some i =>
    simp only [inserted] at advanced
    split at advanced
    · split at advanced
      · obtain ⟨rfl, -⟩ := Prod.mk.inj (Option.some.inj advanced)
        rfl
      · obtain ⟨_, -, made⟩ := Option.map_eq_some_iff.1 advanced
        obtain ⟨rfl, -⟩ := Prod.mk.inj made
        rfl
    · obtain ⟨rfl, -⟩ := Prod.mk.inj (Option.some.inj advanced)
      rfl

/-- If every block has a frame, an operation leaves those in the queue, with those it ends, but
for the ones it gives. -/
theorem Op.conserves (sound : d.Sound s)
    (short : ∀ block ∈ d.recordings ++ op.ended d, block.size ≤ Tap.payloadLimit)
    (ran : op.run s d = some (s', d')) (gives : op.Gives s d s' blocks) :
    d.recordings ++ op.ended d = blocks ++ d'.recordings := by
  cases op
  case advance edges ticks =>
    obtain ⟨⟨d', r⟩, advanced, made⟩ := Option.map_eq_some_iff.1 ran
    obtain ⟨rfl, rfl⟩ := Prod.mk.inj made
    obtain rfl := gives
    rw [advance_recordings advanced]
    exact List.append_nil _
  all_goals
    obtain ⟨rfl, rfl⟩ := Prod.mk.inj (Option.some.inj ran)
  case takeRecordings =>
    obtain rfl := gives
    exact (List.append_nil _).symm
  -- The account of a save is the one that its bytes allow, whichever way it went.
  case saveRecordings =>
    have saved := sound.saved
    have puts : Puts s d blocks (d.saveRecordings s).1 := gives
    show d.queue = blocks ++ (d.saveRecordings s).2.1.recordings
    generalize d.saveRecordings s = result at saved puts ⊢
    cases saved with
    | nothing none =>
      obtain rfl := puts.unique sound .nothing
      rfl
    | refused =>
      obtain rfl := puts.unique sound .nothing
      rfl
    | done inserted framed appended =>
      obtain rfl := puts.unique sound (.frames inserted framed)
      exact (List.append_nil _).symm
    | half inserted tap failed =>
      have all : (Tap.frames d.queue).2 = .ok () := Tap.frames_ok_iff.2 short
      rw [failed] at all
      exact nomatch all
  all_goals
    obtain rfl := gives
  case send level tick =>
    show d.recordings ++ Op.ended d (.send level tick) = (d.send level tick).recordings
    rw [Deck.send, Op.ended]
    split
    · rfl
    · exact List.append_nil _
  case quiet tick => rfl
  -- What is left neither ends a block nor takes one from the queue.
  all_goals
    refine (List.append_nil _).trans (Eq.symm ?_)
  case insert path =>
    show (d.insert s path).1.recordings = d.recordings
    rw [Deck.insert]
    split
    · rfl
    · exact insertKnown_recordings path _
  case insertKnown path format => exact insertKnown_recordings path format
  case play =>
    show d.play.1.recordings = d.recordings
    rw [Deck.play]
    split <;> rfl
  case eject | stop | rewind => rfl
  case seek | countBlocks | summary | listing | toggle => exact onTape_recordings _
  case rename | moveSelection | removeSelection => exact edit_recordings _

/-! ### Recording -/

theorem Ledger.listen (ledger : Ledger s d ended given) (recording : d.isRecording) (tick : Nat)
    (intervals : List (Bool × Nat)) :
    let told := d.recorder.listen tick intervals
    Ledger s { d with recorder := told.2, recordings := d.recordings ++ told.1 }
      (ended ++ told.1) given := by
  induction intervals generalizing d tick ended with
  | nil => simpa only [Recorder.listen, List.append_nil] using ledger
  | cons interval rest ih =>
    obtain ⟨level, ticks⟩ := interval
    obtain ⟨settings, tape, recorder, recordings⟩ := d
    have next := ledger.next (.send level tick) rfl rfl
    simp only [Deck.send, Op.ended, recording, ↓reduceIte, List.append_nil] at next
    have on := ih next recording (tick + ticks)
    simpa only [Recorder.listen, Deck.listen, List.append_assoc] using on

/-- Blocks that are not empty can come to be in the queue, however many and however long. -/
theorem Ledger.records (ledger : Ledger s d ended given) (recording : d.isRecording)
    (dubbable : d.settings.Dubbable) {tick : Nat} (waiting : d.recorder.Waiting tick)
    (timings : d.recorder.timings = d.settings.timings)
    (silence : d.recorder.silence = d.settings.silence) {payloads : List Bytes}
    (filled : ∀ payload ∈ payloads, 0 < payload.size) :
    ∃ d' ended', Ledger s d' ended' given ∧ d'.tape = d.tape ∧ d'.queue = d.queue ++ payloads ∧
      ∀ block ∈ ended', block ∈ ended ∨ block ∈ d'.queue := by
  induction payloads generalizing d tick ended with
  | nil => exact ⟨d, ended, ledger, rfl, (List.append_nil _).symm, fun _ => .inl⟩
  | cons payload rest ih =>
    -- The pulses are those with which a tape would send the payload.
    let t : Tape := ⟨.tap, .ofBytes payload, none⟩
    have all : t.image.slice 0 payload.size = payload := by
      simp only [t, Image.slice, Image.ofBytes, Nat.zero_add, Array.extract_size]
    have some : 0 < (t.image.slice 0 payload.size).size := all.symm ▸ filled payload (by simp)
    let data : Tzx.Span := ⟨0, payload.size⟩
    have inside : data.stop ≤ t.image.length := Nat.le_of_eq (Nat.zero_add _)
    obtain ⟨r, tick', waiting', timings', silence', held, told⟩ :=
      waiting.listen_block dubbable (Image.whole_ofBytes payload) inside some timings silence
    have heard := told [] []
    simp only [Signal.heard, List.append_nil, Recorder.listen] at heard
    have on := ledger.listen recording tick
      (Signal.heard false
        ((Signal.romIntervals d.settings t.image d.settings.blockPauseMs data).map .start))
    simp only [heard] at on
    obtain ⟨d', ended', ledger', tape, grown, members⟩ :=
      ih on recording dubbable waiting' timings' silence' fun b hb => filled b (by simp [hb])
    -- The block before is ended now, and this one is still held by the recorder.
    have added : queue { d with
        recorder := r, recordings := d.recordings ++ d.recorder.endBlock.1.toList } =
        d.queue ++ [payload] := by
      rw [queue_eq, held, all]
      rfl
    have whole : d'.queue = d.queue ++ payload :: rest := by
      rw [grown, added, List.append_assoc]
      rfl
    refine ⟨d', ended', ledger', tape, whole, fun block member => ?_⟩
    rcases members block member with early | late
    · rcases List.mem_append.1 early with before | first
      · exact .inl before
      · right
        rw [whole, queue_eq]
        simp only [List.mem_append]
        exact .inl (.inr first)
    · exact .inr late

theorem ledger_of_queue {settings : Settings} {path : String} (dubbable : settings.Dubbable)
    (inserted :
      (Deck.new settings).insert s path = ({ Deck.new settings with tape := some i }, .ok ()))
    (recording : { Deck.new settings with tape := some i }.isRecording) (queue : List Bytes)
    (filled : ∀ payload ∈ queue, 0 < payload.size) :
    ∃ d ended, Ledger s d ended [] ∧ d.tape = some i ∧ d.queue = queue ∧
      ∀ block ∈ ended, block ∈ queue := by
  have ledger := (Ledger.new s settings).next (.insert path) rfl rfl
  rw [inserted] at ledger
  have waiting : (Recorder.new settings.timings settings.ticksPerSecond).Waiting 0 :=
    ⟨rfl, nofun, fun _ => ⟨.inl rfl, rfl, rfl⟩⟩
  obtain ⟨d, ended, ledger', tape, whole, members⟩ :=
    ledger.records recording dubbable waiting rfl rfl filled
  have whole : d.queue = queue := whole
  refine ⟨d, ended, ledger', tape, whole, fun block member => ?_⟩
  rcases members block member with early | late
  · exact nomatch early
  · rwa [← whole]

/-! ### Saving -/

/-- If none of the blocks that ended was too long for a frame, each has left the queue once or
is still in it. -/
theorem Ledger.balanced (ledger : Ledger s d ended given)
    (short : ∀ block ∈ ended, block.size ≤ Tap.payloadLimit) : ended = given ++ d.recordings := by
  induction ledger with
  | new s settings => rfl
  | @next s s' d d' ended given blocks op h ran gives ih =>
    -- The queue was in balance, so its blocks are among those that ended.
    have before := ih fun block member => short block (List.mem_append_left _ member)
    have queued : ∀ block ∈ d.recordings ++ op.ended d, block.size ≤ Tap.payloadLimit := by
      intro block member
      apply short
      rw [before, List.append_assoc]
      exact List.mem_append_right _ member
    have conserved := Op.conserves h.reachable.sound queued ran gives
    rw [before, List.append_assoc, conserved, List.append_assoc]

/-- A save that succeeds adds the frames of all blocks in the queue to the file of the tape, which
then has that many blocks more, and empties the queue. One that fails leaves every block in the
queue and the file as it was; only if there is a block too long for a frame are those in front of
it in the file. If there never was one, no sequence of operations loses a block or saves one
twice. -/
theorem Ledger.saved_or_kept {r : Except Fault Nat} (ledger : Ledger s d ended given)
    (saved : d.saveRecordings s = (s', d', r)) :
    (∀ count, r = .ok count → count = d.queue.length ∧ d'.queue = [] ∧
      (d.queue = [] ∧ s' = s ∨ ∃ i i' y y' written, d.tape = some i ∧ d'.tape = some i' ∧
        Tap.frames d.queue = (written, .ok ()) ∧
        s' = s.overwrite i.object (s.contents i.object ++ written) ∧
        Inserted.Appended d.settings s i d.queue s' i' y y')) ∧
    (∀ fault, r = .error fault → d'.recordings = d.queue ∧ d'.queue = d.queue ∧
      (s' = s ∨ fault = .file .blockTooLong ∧ (∃ block ∈ d.queue, Tap.payloadLimit < block.size) ∧
        ∃ i, d.tape = some i ∧ s' = s.overwrite i.object (s.contents i.object ++
          (Tap.frames (d.queue.takeWhile (·.size ≤ Tap.payloadLimit))).1))) ∧
    ((∀ block ∈ ended, block.size ≤ Tap.payloadLimit) → ended = given ++ d.recordings) := by
  have result := ledger.reachable.sound.saved
  rw [saved] at result
  refine ⟨?_, ?_, ledger.balanced⟩
  · rintro count rfl
    cases result with
    | nothing none => exact ⟨by rw [none]; rfl, d.queue_finished.trans none, .inl ⟨none, rfl⟩⟩
    | @done i i' y y' written inserted framed appended =>
      exact ⟨rfl, rfl, .inr ⟨i, i', y, y', written, inserted, rfl, framed, rfl, appended⟩⟩
  · rintro fault rfl
    cases result with
    | refused => exact ⟨rfl, d.queue_finished, .inl rfl⟩
    | @half i written fault inserted tap failed =>
      refine ⟨rfl, d.queue_finished, .inr ⟨?_, ?_, i, inserted, ?_⟩⟩
      · rw [Tap.frames_fault (congrArg Prod.snd failed)]
      · by_contra short
        push Not at short
        have all := Tap.frames_ok_iff.2 short
        rw [failed] at all
        exact nomatch all
      · rw [Tap.frames_takeWhile, failed]

/-- Two blocks are recorded behind those that are in the file, and saved. -/
theorem saves_two :
    ∃ d s' d', Ledger twoBlocks d d.recordings [] ∧ d.queue = [#[7], #[8, 9]] ∧
      d.saveRecordings twoBlocks = (s', d', .ok 2) ∧ d'.queue = [] ∧
      s'.contents 0 = #[1, 0, 0xA1, 1, 0, 0xB2, 1, 0, 7, 2, 0, 8, 9] := by
  obtain ⟨d, ended, ledger, tape, queue, members⟩ :=
    ledger_of_queue Settings.standard_dubbable insert_twoBlocks rfl [#[7], #[8, 9]] (by decide)
  obtain ⟨x, holds⟩ := ledger.reachable.sound twoBlocksTape tape
  have filled : d.queue ≠ [] := queue ▸ nofun
  have accepted : d.refusal = none := by
    rw [refusal, tape]
    rfl
  have framed : Tap.frames d.queue = (#[1, 0, 7, 2, 0, 8, 9], .ok ()) := by
    rw [queue]
    decide
  have short : ∀ block ∈ ended, block.size ≤ Tap.payloadLimit := fun block member => by
    have all : ∀ block ∈ [(#[7] : Bytes), #[8, 9]], block.size ≤ Tap.payloadLimit := by decide
    exact all block (members block member)
  obtain ⟨i', y, y', -, saved⟩ := save_done filled tape accepted holds framed
  obtain ⟨done, -, balanced⟩ := ledger.saved_or_kept saved
  obtain ⟨count, left, -⟩ := done _ rfl
  obtain rfl : ended = d.recordings := balanced short
  rw [queue] at saved
  refine ⟨d, _, _, ledger, queue, saved, left, ?_⟩
  exact Store.contents_overwrite holds.there

/-- A block of one byte more than a length word can count is recorded behind a short one. The save
fails, but the short block is in the file; the next fails as well, and then it is there twice. -/
theorem half_saved_twice :
    let long : Bytes := Array.replicate 0x10000 0
    ∃ d s' d' s'' d'' fault, Reachable twoBlocks d ∧ d.queue = [#[7], long] ∧
      d.saveRecordings twoBlocks = (s', d', .error fault) ∧
      s'.contents 0 = #[1, 0, 0xA1, 1, 0, 0xB2, 1, 0, 7] ∧ d'.queue = [#[7], long] ∧
      d'.saveRecordings s' = (s'', d'', .error fault) ∧
      s''.contents 0 = #[1, 0, 0xA1, 1, 0, 0xB2, 1, 0, 7, 1, 0, 7] ∧ d''.queue = [#[7], long] := by
  intro long
  have size : long.size = 0x10000 := Array.size_replicate
  obtain ⟨d, ended, ledger, tape, queue, -⟩ :=
    ledger_of_queue Settings.standard_dubbable insert_twoBlocks rfl [#[7], long] (by simp [size])
  have failed : Tap.frames [#[7], long] = (#[1, 0, 7], .error .blockTooLong) := by
    have first : Tap.frame #[7] = .ok #[1, 0, 7] := rfl
    have second : Tap.frame long = .error .blockTooLong := by
      rw [Tap.frame, if_neg (by rw [size]; decide)]
    rw [Tap.frames, first, Tap.frames, second]
    rfl
  have filled {d : Deck} (queue : d.queue = [#[7], long]) : d.queue ≠ [] :=
    queue ▸ List.cons_ne_nil _ _
  have accepted {d : Deck} {player : Player} (tape : d.tape = some { twoBlocksTape with player }) :
      d.refusal = none := by
    rw [refusal, tape]
    rfl
  have sound := ledger.reachable.sound
  obtain ⟨x, holds⟩ := sound twoBlocksTape tape
  have saved := save_half (filled queue) tape (accepted tape) holds (queue.symm ▸ failed)
  let d' : Deck := { d.listen Recorder.finish with
    tape := some { twoBlocksTape with player := twoBlocksTape.player.stop } }
  have sound' := sound.saveRecordings
  rw [saved] at sound'
  obtain ⟨y, holds'⟩ := sound' _ rfl
  have queue' : d'.queue = [#[7], long] := d.queue_finished.trans queue
  have tape' : d'.tape = some { twoBlocksTape with player := twoBlocksTape.player.stop } := rfl
  have saved' := save_half (filled queue') tape' (accepted tape') holds' (queue'.symm ▸ failed)
  refine ⟨d, _, d', _, _, _, ledger.reachable, queue, saved, ?_, queue', saved', ?_, ?_⟩
  · exact Store.contents_overwrite holds.there
  · exact Store.contents_overwrite holds'.there
  · exact d'.queue_finished.trans queue'

end Cassette.Deck
