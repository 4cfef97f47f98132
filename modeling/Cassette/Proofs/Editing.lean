import Cassette.Proofs.Choosing

/-! What edits come to. An edit of the tape in a deck is refused, or it fails with nothing written,
or it writes over a header, or it puts blocks into a new file (`Sound.edited`); and only the file
of a tape that may be written is ever written to, so files that may only be read keep their bytes
and their paths whatever is done with a deck (`Op.guarded`). Main statement:
`Reachable.failed_edit`. -/

namespace Cassette

/-! ### Orders -/

namespace Order

variable {count before : Nat} {selection : Selection} {order : List Nat}

theorem length_unselected (inside : ∀ k ∈ selection, k < count) :
    (unselected count selection).length + selection.size = count := by
  have split := List.length_eq_length_filter_add (l := List.range count) (· ∈ selection)
  rw [List.length_range, ← Selection.ordinals_eq inside] at split
  simp only [unselected, Selection.size, decide_not]
  omega

theorem length_move (ordered : move count selection before = .ok order) :
    order.length = count := by
  rw [move] at ordered
  split at ordered
  · contradiction
  · next checked =>
    split at ordered
    · contradiction
    · obtain rfl := Except.ok.inj ordered
      have all := length_unselected (check_eq_ok_iff.1 checked).2
      have parts := List.length_eq_length_filter_add (l := unselected count selection) (· < before)
      simp only [← decide_not, Nat.not_lt] at parts
      simp only [List.length_append]
      rw [Selection.size] at all
      omega

theorem length_remove (ordered : remove count selection = .ok order) :
    order.length + selection.size = count := by
  rw [remove] at ordered
  split at ordered
  · contradiction
  · next checked =>
    obtain rfl := Except.ok.inj ordered
    exact length_unselected (check_eq_ok_iff.1 checked).2

end Order

/-! ### Files that may only be read -/

namespace Store

variable {s s' s'' : Store} {path : String} {place : Place} {object : Nat} {bytes : Bytes}

/-- What may only be read keeps its bytes, and every path to it. -/
structure Spares (s s' : Store) : Prop where
  locked : s'.locked = s.locked
  size : s.objects.size ≤ s'.objects.size
  contents : ∀ o ∈ s.locked, o < s.objects.size → s'.contents o = s.contents o
  resolve : ∀ o ∈ s.locked, ∀ path, s.resolve path = .ok o → s'.resolve path = .ok o

theorem Spares.refl (s : Store) : s.Spares s :=
  ⟨rfl, Nat.le_refl _, fun _ _ _ => rfl, fun _ _ _ named => named⟩

theorem Spares.trans (first : s.Spares s') (then' : s'.Spares s'') : s.Spares s'' where
  locked := then'.locked.trans first.locked
  size := Nat.le_trans first.size then'.size
  contents o member there :=
    (then'.contents o (first.locked ▸ member) (Nat.lt_of_lt_of_le there first.size)).trans
      (first.contents o member there)
  resolve o member path named :=
    then'.resolve o (first.locked ▸ member) path (first.resolve o member path named)

theorem spares_overwrite (free : object ∉ s.locked) (bytes : Bytes) :
    s.Spares (s.overwrite object bytes) where
  locked := rfl
  size := Nat.le_of_eq size_overwrite.symm
  contents _ member _ := contents_overwrite_of_ne fun same => free (same ▸ member)
  resolve _ _ _ named := resolve_overwrite.trans named

/-- Only paths to the object whose place is taken lead elsewhere. -/
theorem spares_replace (named : s.resolve path = .ok object) (free : object ∉ s.locked)
    (replaced : s.replace path bytes = .ok s') : s.Spares s' := by
  obtain ⟨place, found⟩ := resolve_eq_ok_iff.1 named
  rw [replace, found] at replaced
  obtain rfl : s.assign place bytes = s' := Except.ok.inj replaced
  refine ⟨rfl, ?_, fun o _ there => contents_assign_of_lt there, fun o member path' named' => ?_⟩
  · simp [assign]
  · obtain ⟨place', found'⟩ := resolve_eq_ok_iff.1 named'
    have apart : place' ≠ place := by
      rintro rfl
      have same := (lookup_of_find found').symm.trans (lookup_of_find found)
      exact free (Option.some.inj same ▸ member)
    rw [resolve_assign found', if_neg apart]

end Store

namespace Inserted

variable {s : Store} {i : Inserted} {x : Index} {path : String} {format : Format}
  {settings : Settings}

/-- The tape is held, and known to be write-protected just if its file may only be read. -/
structure Guarded (s : Store) (i : Inserted) (x : Index) : Prop where
  holds : i.Holds s x
  flag : i.writeProtected = decide (i.object ∈ s.locked)

theorem Guarded.kept (guarded : i.Guarded s x) (player : Player) (selection : Selection)
    {index : Option Index} (cached : ∀ y, index = some y → y = x) :
    Guarded s { i with player, selection, index } x :=
  ⟨guarded.holds.kept player selection cached, guarded.flag⟩

theorem Guarded.indexed (guarded : i.Guarded s x) (player : Player) (selection : Selection) :
    Guarded s { i with player, selection, index := some x } x :=
  guarded.kept player selection fun _ cached => (Option.some.inj cached).symm

theorem writeProtected_opened (opened : openTape s path format settings = .ok i) :
    i.writeProtected = decide (i.object ∈ s.locked) := by
  obtain ⟨-, -, -, -, -, -, -, -, -, flag⟩ := tape_opened opened
  exact flag

theorem guarded_opened (opened : openTape s path format settings = .ok i) (holds : i.Holds s x) :
    i.Guarded s x :=
  ⟨holds, writeProtected_opened opened⟩

theorem Guarded.free (guarded : i.Guarded s x) (free : i.writeProtected = false) :
    i.object ∉ s.locked :=
  of_decide_eq_false (guarded.flag.symm.trans free)

end Inserted

namespace Deck

variable {s s' : Store} {d d' : Deck} {i : Inserted} {x : Index}

/-- The tape in the deck, if there is one, is guarded. -/
def Guarded (s : Store) (d : Deck) : Prop := d.Knows (Inserted.Guarded s)

theorem Guarded.sound (guarded : d.Guarded s) : d.Sound s := by
  intro i inserted
  obtain ⟨x, known⟩ := guarded i inserted
  exact ⟨x, known.holds⟩

theorem insertKnown_guarded (d : Deck) (s : Store) (path : String) (format : Format) :
    (d.insertKnown s path format).1.Guarded s := by
  apply insertKnown_knows
  intro i opened
  obtain ⟨x, raw, found, rfl, holds, -⟩ := openIndexed_holds opened
  have flag := Inserted.writeProtected_opened found
  exact ⟨x, holds, flag⟩

theorem Guarded.onPlayer (guarded : d.Guarded s) (f : Player → Player) :
    (d.onPlayer f).Guarded s :=
  Knows.onPlayer guarded fun i _ known => known.kept (f i.player) i.selection known.holds.cached

/-- What is done with a tape leaves its file alone, whatever becomes of player and selection. -/
theorem Guarded.onTape {α : Type} {f : Inserted → Index → Inserted × Except Fault α}
    (guarded : d.Guarded s)
    (keeps : ∀ i x, ∃ player selection, (f i x).1 = { i with player, selection }) :
    (d.onTape s f).1.Guarded s := by
  refine Knows.onTape (fun _ _ known => known.holds) guarded fun i x known => ?_
  obtain ⟨player, selection, kept⟩ := keeps { i with index := some x } x
  rw [kept]
  exact known.indexed player selection

/-! ### Writing to files -/

/-- An edit spares what may only be read if it does so for a tape that may be written. -/
theorem Guarded.edit {α : Type} {f : Inserted → Index → Store × Inserted × Except Fault α}
    (guarded : d.Guarded s)
    (keeps : ∀ i x, i.Guarded s x → i.writeProtected = false →
      s.Spares (f i x).1 ∧ ∃ y, (f i x).2.1.Guarded (f i x).1 y) :
    s.Spares (d.edit s f).1 ∧ (d.edit s f).2.1.Guarded (d.edit s f).1 := by
  cases inserted : d.tape with
  | none =>
    rw [Deck.edit, inserted]
    exact ⟨.refl s, guarded⟩
  | some i =>
    obtain ⟨x, known⟩ := guarded i inserted
    cases locked : i.writeProtected with
    | true =>
      simp only [Deck.edit, inserted, locked]
      exact ⟨.refl s, guarded⟩
    | false =>
      rw [edit_eq inserted locked known.holds f]
      obtain ⟨spared, y, kept⟩ := keeps _ x (known.indexed i.player.stop i.selection) locked
      exact ⟨spared, knows_of_tape rfl kept⟩

theorem rearrange_store (settings : Settings) (s : Store) (i : Inserted) (x : Index)
    (order : Except Fault (List Nat)) :
    (rearrange settings s i x order).1 = s ∨
      ∃ bytes, s.replace i.path bytes = .ok (rearrange settings s i x order).1 := by
  unfold rearrange
  split
  · exact .inl rfl
  · split
    · exact .inl rfl
    · dsimp only
      split
      · exact .inl rfl
      · split
        · exact .inl rfl
        · next replaced => exact .inr ⟨_, replaced⟩

theorem rearrange_guarded (guarded : i.Guarded s x) (free : i.writeProtected = false)
    (settings : Settings) {order : Except Fault (List Nat)}
    (inside : ∀ o, order = .ok o → ∀ k ∈ o, k < x.count) :
    s.Spares (rearrange settings s i x order).1 ∧
      ∃ y, (rearrange settings s i x order).2.1.Guarded (rearrange settings s i x order).1 y := by
  constructor
  · obtain same | ⟨bytes, replaced⟩ := rearrange_store settings s i x order
    · rw [same]
      exact .refl s
    · exact Store.spares_replace guarded.holds.named (guarded.free free) replaced
  · obtain ⟨fault, done⟩ | ⟨o, s', i', y, -, done, rearranged⟩ :=
      rearrange_cases guarded.holds settings inside
    · rw [done]
      exact ⟨x, guarded⟩
    · rw [done]
      exact ⟨y, Inserted.guarded_opened rearranged.opened rearranged.holds⟩

theorem Guarded.rename (guarded : d.Guarded s) (ordinal : Nat) (name : String) :
    s.Spares (d.rename s ordinal name).1 ∧
      (d.rename s ordinal name).2.1.Guarded (d.rename s ordinal name).1 := by
  refine guarded.edit fun i x known free => ?_
  cases renamed : (i.tape s).rename x ordinal name with
  | error fault => exact ⟨.refl s, x, known⟩
  | ok r =>
    have holds := (known.holds.renamed renamed).kept i.player .empty known.holds.cached
    exact ⟨Store.spares_overwrite (known.free free) _, x, holds, known.flag⟩

theorem Guarded.moveSelection (guarded : d.Guarded s) (before : Nat) :
    s.Spares (d.moveSelection s before).1 ∧
      (d.moveSelection s before).2.1.Guarded (d.moveSelection s before).1 :=
  guarded.edit fun _ _ known free =>
    rearrange_guarded known free d.settings fun _ ordered => Order.move_inside ordered

theorem Guarded.removeSelection (guarded : d.Guarded s) :
    s.Spares (d.removeSelection s).1 ∧
      (d.removeSelection s).2.1.Guarded (d.removeSelection s).1 :=
  guarded.edit fun _ _ known free =>
    rearrange_guarded known free d.settings fun _ ordered => Order.remove_inside ordered

theorem Guarded.saveRecordings (guarded : d.Guarded s) :
    s.Spares (d.saveRecordings s).1 ∧ (d.saveRecordings s).2.1.Guarded (d.saveRecordings s).1 := by
  have unchanged : s.Spares s ∧ (d.listen Recorder.finish).Guarded s :=
    ⟨.refl s, Knows.of_tape guarded (listen_tape d _)⟩
  by_cases none : d.queue = []
  · rw [save_nothing none]
    exact unchanged
  cases accepted : d.refusal with
  | some fault =>
    rw [save_refused none accepted]
    exact unchanged
  | none =>
    have saved := guarded.sound.saved (s := s)
    generalize d.saveRecordings s = result at saved ⊢
    cases saved with
    | nothing => exact unchanged
    | refused => exact unchanged
    | done inserted framed appended =>
      obtain ⟨x, known⟩ := guarded _ inserted
      have free := Bool.eq_false_iff.2 (accepted_tap inserted accepted).1
      exact ⟨Store.spares_overwrite (known.free free) _,
        knows_of_tape rfl (Inserted.guarded_opened appended.opened appended.holds)⟩
    | @half i written fault inserted tap failed =>
      obtain ⟨x, known⟩ := guarded i inserted
      have free := Bool.eq_false_iff.2 (accepted_tap inserted accepted).1
      -- Whole frames lie behind the tape, though not those of the whole queue.
      have before := Tap.frames_takeWhile d.queue
      rw [failed] at before
      have holds := (known.holds.grown tap before).kept i.player.stop i.selection known.holds.cached
      exact ⟨Store.spares_overwrite (known.free free) _, knows_of_tape rfl ⟨holds, known.flag⟩⟩

/-- An operation spares what may only be read, and leaves it known that it may. -/
theorem Op.guarded {op : Op} (guarded : d.Guarded s) (ran : op.run s d = some (s', d')) :
    s.Spares s' ∧ d'.Guarded s' := by
  cases op
  case advance edges ticks =>
    obtain ⟨⟨d', r⟩, advanced, made⟩ := Option.map_eq_some_iff.1 ran
    obtain ⟨rfl, rfl⟩ := Prod.mk.inj made
    refine ⟨.refl s, Knows.advance (fun _ _ known => known.holds) guarded ?_ advanced⟩
    exact fun i _ known player _ _ => known.indexed player i.selection
  all_goals
    obtain ⟨rfl, rfl⟩ := Prod.mk.inj (Option.some.inj ran)
  case rename ordinal name => exact guarded.rename ordinal name
  case moveSelection before => exact guarded.moveSelection before
  case removeSelection => exact guarded.removeSelection
  case saveRecordings => exact guarded.saveRecordings
  -- Nothing else writes to a file.
  all_goals
    refine ⟨.refl s, ?_⟩
  case eject => exact fun i none => nomatch none
  case insert path => exact Knows.insert guarded (insertKnown_guarded d s path)
  case insertKnown path format => exact insertKnown_guarded d s path format
  case play =>
    rw [Deck.play]
    split
    · exact guarded
    · exact guarded.onPlayer .play
  case stop => exact guarded.onPlayer .stop
  case rewind => exact guarded.onPlayer .rewind
  case seek ordinal =>
    refine guarded.onTape fun i x => ?_
    split
    · exact ⟨i.player, i.selection, rfl⟩
    · exact ⟨_, i.selection, rfl⟩
  case send level tick =>
    rw [Deck.send]
    split
    · exact Knows.of_tape guarded (listen_tape _ _)
    · exact guarded
  case quiet tick => exact Knows.of_tape guarded (listen_tape _ _)
  case takeRecordings => exact Knows.of_tape guarded (listen_tape d Recorder.finish)
  case countBlocks => exact guarded.onTape fun i x => ⟨i.player, i.selection, rfl⟩
  case summary ordinal => exact guarded.onTape fun i x => ⟨i.player, i.selection, rfl⟩
  case listing => exact guarded.onTape fun i x => ⟨i.player, i.selection, rfl⟩
  case toggle ordinal =>
    refine guarded.onTape fun i x => ?_
    split
    · exact ⟨i.player, i.selection, rfl⟩
    · exact ⟨i.player, _, rfl⟩

theorem Reachable.guarded (reachable : Reachable s d) : d.Guarded s := by
  induction reachable with
  | new s settings => exact fun i none => nomatch none
  | next op _ ran ih => exact (Op.guarded ih ran).2

def Op.runAll (s : Store) (d : Deck) : List Op → Option (Store × Deck)
  | [] => some (s, d)
  | op :: rest => do
    let (s, d) ← op.run s d
    Op.runAll s d rest

theorem Op.runAll_guarded {ops : List Op} (guarded : d.Guarded s)
    (ran : Op.runAll s d ops = some (s', d')) : s.Spares s' ∧ d'.Guarded s' := by
  induction ops generalizing s d with
  | nil =>
    obtain ⟨rfl, rfl⟩ := Prod.mk.inj (Option.some.inj ran)
    exact ⟨.refl s, guarded⟩
  | cons op rest ih =>
    obtain ⟨⟨s₁, d₁⟩, first, others⟩ := Option.bind_eq_some_iff.1 ran
    obtain ⟨spared, guarded⟩ := Op.guarded guarded first
    obtain ⟨spared', guarded⟩ := ih guarded others
    exact ⟨spared.trans spared', guarded⟩

/-- With a tape in the deck that may not be written, no operation writes to any file. -/
theorem Op.store_of_writeProtected {op : Op} (inserted : d.tape = some i)
    (locked : i.writeProtected = true) (ran : op.run s d = some (s', d')) : s' = s := by
  have refused {α : Type} (f : Inserted → Index → Store × Inserted × Except Fault α) :
      (d.edit s f).1 = s := by
    simp only [edit, inserted, locked, ↓reduceIte]
  cases op
  case advance edges ticks =>
    obtain ⟨_, -, made⟩ := Option.map_eq_some_iff.1 ran
    exact (congrArg Prod.fst made).symm
  all_goals
    obtain ⟨rfl, rfl⟩ := Prod.mk.inj (Option.some.inj ran)
  case rename | moveSelection | removeSelection => exact refused _
  case saveRecordings =>
    by_cases none : d.queue = []
    · rw [save_nothing none]
    · have protected' : d.refusal = some .writeProtected := by
        simp only [refusal, inserted, locked, ↓reduceIte]
      rw [save_refused none protected']
  all_goals rfl

/-! ### Edits -/

/-- What can be done to the blocks of the tape in a deck. -/
inductive Edit
  | rename (ordinal : Nat) (name : String)
  | moveSelection (before : Nat)
  | removeSelection

/-- What becomes of the files and the deck, and how many blocks fewer there are on the tape. -/
def Edit.run (s : Store) (d : Deck) : Edit → Store × Deck × Except Fault Nat
  | .rename ordinal name =>
    let (s, d, result) := d.rename s ordinal name
    (s, d, result.map fun _ => 0)
  | .moveSelection before =>
    let (s, d, result) := d.moveSelection s before
    (s, d, result.map fun _ => 0)
  | .removeSelection => d.removeSelection s

/-- What an edit may come to. -/
inductive Edited (s : Store) (d : Deck) : Edit → Store × Deck × Except Fault Nat → Prop
  | refused {edit : Edit} (fault : Fault) : Edited s d edit (s, d, .error fault)
  | failed {edit : Edit} {i : Inserted} {x : Index} (inserted : d.tape = some i)
      (holds : i.Holds s x) (fault : Fault) :
    Edited s d edit (s,
      { d with tape := some { i with player := i.player.stop, index := some x } },
      .error fault)
  | renamed {i : Inserted} {x : Index} {ordinal : Nat} {name : String} {t : Tape}
      {came : Renaming} (inserted : d.tape = some i) (holds : i.Holds s x)
      (renamed : (i.tape s).rename x ordinal name = .ok (t, came)) :
    Edited s d (.rename ordinal name) (s.overwrite i.object t.image.bytes,
      { d with
        tape := some { i with player := i.player.stop, index := some x, selection := .empty } },
      .ok 0)
  | rearranged {edit : Edit} {i i' : Inserted} {x y : Index} {order : List Nat} {s' : Store}
      {taken : Nat} (inserted : d.tape = some i) (holds : i.Holds s x)
      (rearranged : Inserted.Rearranged d.settings s i order s' i' y)
      (count : order.length + taken = x.count) :
    Edited s d edit (s', { d with tape := some i' }, .ok taken)

/-- Nothing can be done to a tape that is not there or may not be written, or it is stopped and
its index at hand. -/
theorem Sound.edit_cases (sound : d.Sound s) :
    (∃ fault, ∀ (α : Type) (f : Inserted → Index → Store × Inserted × Except Fault α),
        d.edit s f = (s, d, .error fault)) ∨
      ∃ i x, d.tape = some i ∧ i.writeProtected = false ∧ i.Holds s x := by
  cases inserted : d.tape with
  | none =>
    refine .inl ⟨.deckEmpty, fun α f => ?_⟩
    rw [Deck.edit, inserted]
  | some i =>
    cases locked : i.writeProtected with
    | true =>
      refine .inl ⟨.writeProtected, fun α f => ?_⟩
      simp only [Deck.edit, inserted, locked, ↓reduceIte]
    | false =>
      obtain ⟨x, holds⟩ := sound i inserted
      exact .inr ⟨i, x, rfl, locked, holds⟩

/-- An edit is refused, or fails with nothing written, or does what it is for. -/
theorem Sound.edited (sound : d.Sound s) (edit : Edit) : Edited s d edit (edit.run s d) := by
  obtain ⟨fault, refused⟩ | ⟨i, x, inserted, free, holds⟩ := sound.edit_cases
  · cases edit
    all_goals
      simp only [Edit.run, Deck.rename, Deck.moveSelection, Deck.removeSelection, refused]
      exact .refused fault
  have stopped := stopped_holds holds
  cases edit with
  | rename ordinal name =>
    simp only [Edit.run, Deck.rename, edit_eq inserted free holds]
    cases renamed : Tape.rename _ x ordinal name with
    | error fault => exact .failed inserted holds fault
    | ok r => exact .renamed inserted holds renamed
  | moveSelection before =>
    simp only [Edit.run, Deck.moveSelection, edit_eq inserted free holds]
    obtain ⟨fault, done⟩ | ⟨o, s', i', y, ordered, done, rearranged⟩ :=
      rearrange_cases stopped d.settings fun _ ordered => Order.move_inside ordered
    · rw [done]
      exact .failed inserted holds fault
    · rw [done]
      exact .rearranged inserted holds rearranged.of_kept (Order.length_move ordered)
  | removeSelection =>
    simp only [Edit.run, Deck.removeSelection, edit_eq inserted free holds]
    obtain ⟨fault, done⟩ | ⟨o, s', i', y, ordered, done, rearranged⟩ :=
      rearrange_cases stopped d.settings fun _ ordered => Order.remove_inside ordered
    · rw [done]
      exact .failed inserted holds fault
    · rw [done]
      exact .rearranged inserted holds rearranged.of_kept (Order.length_remove ordered)

theorem countBlocks_eq (inserted : d.tape = some i) (holds : i.Holds s x) :
    (d.countBlocks s).2 = .ok x.count := by
  rw [countBlocks, onTape_eq inserted holds]

/-- Whatever has been done with a deck before: an edit that fails writes nothing, and all it may
do to the deck is to stop the tape and keep its index at hand. A tape is write-protected just if
its file may only be read; while it is in the deck, no operation writes to any file, and whatever
is done with the deck, a file that may only be read keeps its bytes and its paths. -/
theorem Reachable.failed_edit (reachable : Reachable s d) :
    (∀ (edit : Edit) s' d' fault, edit.run s d = (s', d', .error fault) →
      s' = s ∧ (d'.countBlocks s').2 = (d.countBlocks s).2 ∧
      (d' = d ∨ ∃ i index, d.tape = some i ∧ d' = { d with
        tape := some { i with index, player := { i.player with playing := false } } })) ∧
    (∀ i, d.tape = some i → (i.writeProtected = true ↔ i.object ∈ s.locked) ∧
      (i.writeProtected = true → ∀ (op : Op) s' d', op.run s d = some (s', d') → s' = s)) ∧
    ∀ ops s' d', Op.runAll s d ops = some (s', d') → ∀ o ∈ s.locked, o < s.objects.size →
      s'.contents o = s.contents o ∧
        ∀ path, s.resolve path = .ok o → s'.resolve path = .ok o := by
  have guarded := reachable.guarded
  refine ⟨fun edit s' d' fault failed => ?_, fun i inserted => ⟨?_, ?_⟩, ?_⟩
  · have edited := guarded.sound.edited edit
    rw [failed] at edited
    cases edited with
    | refused => exact ⟨rfl, rfl, .inl rfl⟩
    | @failed _ i x inserted holds =>
      refine ⟨rfl, ?_, .inr ⟨i, some x, inserted, rfl⟩⟩
      rw [countBlocks_eq inserted holds, countBlocks_eq rfl (stopped_holds holds)]
  · obtain ⟨x, known⟩ := guarded i inserted
    rw [known.flag, decide_eq_true_iff]
  · exact fun locked op s' d' => Op.store_of_writeProtected inserted locked
  · intro ops s' d' ran o member there
    have spared := (Op.runAll_guarded guarded ran).1
    exact ⟨spared.contents o member there, spared.resolve o member⟩

/-- There is nothing to move on a tape that plays, and all it comes to is that the tape stops. -/
theorem failed_edit_playing :
    let d : Deck := { new .standard with tape := some twoBlocksTape }
    ∃ s', Reachable twoBlocks d.play.1 ∧
      (Edit.moveSelection 0).run twoBlocks d.play.1 = (s', d, .error .nothingSelected) ∧
      s' = twoBlocks ∧ (d.countBlocks s').2 = .ok 2 := by
  intro d
  have playing : Reachable twoBlocks d.play.1 := .next .play reachable_twoBlocks rfl
  obtain ⟨x, holds⟩ := playing.sound _ rfl
  obtain rfl : (⟨#[0], 2⟩ : Index) = x := holds.cached _ rfl
  have failed := moveSelection_nothing (d := d.play.1) rfl rfl holds rfl 0
  have run : (Edit.moveSelection 0).run twoBlocks d.play.1 =
      (twoBlocks, d, .error .nothingSelected) := by
    rw [Edit.run, failed]
    rfl
  obtain ⟨same, count, -⟩ := playing.failed_edit.1 _ _ _ _ run
  exact ⟨_, playing, run, same, count.trans (countBlocks_eq rfl holds)⟩

end Deck

end Cassette
