import Cassette.Proofs.Scanning
import Cassette.Proofs.Splice

/-! Tapes that have been cut short. Every field is read behind a check of the length, so a block
of which a part is missing is always the same fault, wherever the cut is (`blockAt?_cut`), and the
blocks in front of it are read as before (`Row.upTo`). Main statement: `cut_detected`, a tape that
was cut between two blocks is a tape of the blocks in front of the cut, and one that was cut inside
a block cannot be indexed. -/

namespace Cassette

open Image (Same)

/-! ### Faults of missing bytes -/

/-- If this reading fails, then because bytes are missing. -/
def OnlyCut {α : Type} (r : Except ReadFault α) : Prop :=
  ∀ fault, r = .error fault → Fault.ofRead fault = .cutShort

section Reading

variable {α : Type} {image : Image} {offset count length : Nat} {what : String}

theorem onlyCut_ok (a : α) : OnlyCut (.ok a : Except ReadFault α) := nofun

theorem onlyCut_truncated {o n a : Nat} :
    OnlyCut (.error (.truncated what o n a) : Except ReadFault α) := by
  rintro _ ⟨⟩
  rfl

theorem OnlyCut.bind {β : Type} {r : Except ReadFault β} (first : OnlyCut r)
    {f : β → Except ReadFault α} (on : ∀ b, OnlyCut (f b)) : OnlyCut (r >>= f) := by
  cases r with
  | error fault => exact fun _ failed => first _ (congrArg _ (Except.error.inj failed))
  | ok b => exact on b

theorem onlyCut_claim {f : Unit → Except ReadFault α}
    (on : offset + count ≤ image.length → OnlyCut (f ())) :
    OnlyCut (image.claim offset count what >>= f) := by
  rw [Image.claim]
  split
  · next inside => exact on inside
  · exact onlyCut_truncated

theorem onlyCut_reach (whole : image.Whole) {f : Unit → Except ReadFault α}
    (inside : offset + count ≤ image.length) (on : OnlyCut (f ())) :
    OnlyCut (image.reach offset count >>= f) := by
  rw [Image.reach, if_pos (.inr (whole ▸ inside))]
  exact on

theorem onlyCut_fetch (whole : image.Whole) {f : Unit → Except ReadFault α}
    (on : offset + count ≤ image.length → OnlyCut (f ())) :
    OnlyCut (image.fetch offset count what >>= f) := by
  rw [Image.fetch, bind_assoc]
  exact onlyCut_claim fun inside => onlyCut_reach whole inside (on inside)

theorem Tap.onlyCut_blockAt? (whole : image.Whole) : OnlyCut (blockAt? image offset) := by
  unfold blockAt?
  split
  · exact onlyCut_ok _
  · refine onlyCut_fetch whole fun _ => onlyCut_claim fun payload => ?_
    split
    · exact onlyCut_ok _
    · next some =>
      have long : 0 < (image.word offset).toNat :=
        Nat.pos_of_ne_zero fun h => some (UInt16.toNat_inj.1 h)
      refine onlyCut_reach whole (by omega) ?_
      dsimp only
      split
      · next header =>
        have nineteen : (image.word offset).toNat = 19 := by rw [header.1]; rfl
        exact onlyCut_reach whole (by omega) (onlyCut_ok _)
      · exact onlyCut_ok _

namespace Tzx

theorem onlyCut_payloadAt {f : Span → Except ReadFault α} (on : ∀ data, OnlyCut (f data)) :
    OnlyCut (payloadAt image offset length what >>= f) := by
  rw [payloadAt, bind_assoc]
  exact onlyCut_claim fun _ => on _

theorem onlyCut_measuredText (whole : image.Whole) {f : String × Nat → Except ReadFault α}
    (on : ∀ text, OnlyCut (f text)) : OnlyCut (measuredText image offset what >>= f) := by
  simp only [measuredText, bind_assoc]
  exact onlyCut_fetch whole fun _ => onlyCut_fetch whole fun _ => on _

theorem onlyCut_readBody (whole : image.Whole) (tag : Tag) :
    OnlyCut (readBody image offset tag) := by
  cases tag
  case standardSpeed | turboSpeed | pureData | directRecording =>
    exact onlyCut_fetch whole fun _ => onlyCut_payloadAt fun _ => onlyCut_ok _
  case pulseSequence | callSequence =>
    exact onlyCut_fetch whole fun _ => onlyCut_fetch whole fun _ => onlyCut_ok _
  case pureTone | pause | jump | loopStart => exact onlyCut_fetch whole fun _ => onlyCut_ok _
  case groupStart | description => exact onlyCut_measuredText whole fun _ => onlyCut_ok _
  case groupEnd | loopEnd | callReturn => exact onlyCut_ok _
  case select | archive | hardware =>
    exact onlyCut_fetch whole fun _ => onlyCut_claim fun _ => onlyCut_ok _
  case stopIf48K | glue => exact onlyCut_claim fun _ => onlyCut_ok _
  case signalLevel =>
    exact onlyCut_claim fun inside => onlyCut_reach whole (by omega) (onlyCut_ok _)
  case message =>
    exact onlyCut_claim fun _ => onlyCut_measuredText whole fun _ => onlyCut_ok _
  case custom =>
    refine onlyCut_claim fun inside => onlyCut_reach whole (by omega) ?_
    exact onlyCut_claim fun _ => onlyCut_ok _
  case csw =>
    refine onlyCut_claim fun inside => onlyCut_reach whole (by omega) ?_
    dsimp only
    split
    · exact onlyCut_truncated
    · exact onlyCut_reach whole (by omega) (onlyCut_payloadAt fun _ => onlyCut_ok _)

theorem onlyCut_blockAt? (whole : image.Whole) {tag : Tag}
    (known : Tag.ofByte? (image.byte offset) = some tag) : OnlyCut (blockAt? image offset) := by
  unfold blockAt?
  split
  · exact onlyCut_ok _
  · refine onlyCut_reach whole (by omega) ?_
    simp only [known]
    exact (onlyCut_readBody whole tag).bind fun _ => onlyCut_ok _

end Tzx

end Reading

/-! ### The cut -/

namespace Tape

variable {t t' : Tape} {x : Index} {head stop o c : Nat} {b : Block} {bs : List Block}

/-- A block whose kind is known is read or lacks bytes. -/
theorem onlyCut_blockAt? (whole : t.image.Whole)
    (known : t.format = .tzx → ∃ tag, Tzx.Tag.ofByte? (t.image.byte o) = some tag) :
    OnlyCut (t.blockAt? o) := by
  unfold blockAt?
  cases format : t.format with
  | tap => exact (Tap.onlyCut_blockAt? whole).bind fun _ => onlyCut_ok _
  | tzx =>
    obtain ⟨tag, known⟩ := known format
    exact (Tzx.onlyCut_blockAt? whole known).bind fun _ => onlyCut_ok _

def upTo (t : Tape) (cut : Nat) : Tape :=
  { t with image := .ofBytes (t.image.bytes.extract 0 cut) }

theorem upTo_whole (t : Tape) (cut : Nat) : (t.upTo cut).image.Whole := Image.whole_ofBytes _

theorem upTo_start (t : Tape) (cut : Nat) : (t.upTo cut).start = t.start := rfl

section Cut

variable (whole : t.image.Whole) (inside : c ≤ t.length)
include whole inside

theorem upTo_length : (t.upTo c).length = c := by
  have size : t.length = t.image.bytes.size := whole
  show (t.image.bytes.extract 0 c).size = c
  rw [Array.size_extract]
  omega

theorem same_upTo : Same t.image 0 (t.upTo c).image 0 c where
  left := by
    have size : t.length = t.image.bytes.size := whole
    omega
  right := by
    have size : (t.upTo c).image.bytes.size = c := upTo_length whole inside
    omega
  byte k before := by
    simp only [Nat.zero_add, upTo, Image.ofBytes, Image.byte, Array.getD_eq_getD_getElem?,
      Array.getElem?_extract]
    rw [if_pos (by have size : t.length = t.image.bytes.size := whole; omega)]

theorem blockAt?_upTo (read : t.blockAt? o = .ok (some b)) (before : o + b.size ≤ c) :
    (t.upTo c).blockAt? o = .ok (some b) := by
  have same : Same t.image o (t.upTo c).image o b.size :=
    (same_upTo whole inside).part (Nat.zero_le o) (by omega) rfl
  have again := blockAt?_moved whole (upTo_whole t c) rfl read same
  rwa [moved_self whole read] at again

/-- A block that the cut goes through lacks bytes, and that is the fault. -/
theorem blockAt?_cut (read : t.blockAt? o = .ok (some b)) (starts : o < c)
    (ends : c < o + b.size) :
    ∃ fault, (t.upTo c).blockAt? o = .error fault ∧ Fault.ofRead fault = .cutShort := by
  have whole' := upTo_whole t c
  have length := upTo_length whole inside
  cases cut : (t.upTo c).blockAt? o with
  | ok found =>
    cases found with
    | none =>
      have past := length_le_of_blockAt?_none whole' cut
      omega
    | some b' =>
      -- What is read in front of the cut would have been read before it was made.
      have fits : o + b'.size ≤ (t.upTo c).length := (blockAt?_fits whole' cut).2
      have same : Same t.image o (t.upTo c).image o b'.size :=
        (same_upTo whole inside).part (Nat.zero_le o) (by omega) rfl
      have back : Same (t.upTo c).image o t.image o b'.size :=
        ⟨same.right, same.left, fun k within => (same.byte k within).symm⟩
      have again := blockAt?_moved whole' whole rfl cut back
      rw [moved_self whole' cut, read] at again
      obtain rfl := Option.some.inj (Except.ok.inj again)
      omega
  | error fault =>
    refine ⟨fault, rfl, ?_⟩
    refine onlyCut_blockAt? whole' (fun format => ?_) _ cut
    -- The id is in front of the cut, so the kind of the block is known.
    obtain ⟨block, described, -⟩ := (blockAt?_tzx (t := t) format).1 read
    obtain ⟨tag, known, -⟩ := (Tzx.blockAt?_eq_ok_some_iff whole).1 described
    have id : Same t.image o (t.upTo c).image o 1 :=
      (same_upTo whole inside).part (Nat.zero_le o) (by omega) rfl
    exact ⟨tag, id.first Nat.one_pos ▸ known⟩

end Cut

theorem Row.head_le (whole : t.image.Whole) (row : t.Row head bs stop) (member : b ∈ bs) :
    head ≤ b.offset := by
  induction row with
  | nil => cases member
  | cons read _ ih =>
    rcases List.mem_cons.1 member with rfl | later
    · exact Nat.le_of_eq (blockAt?_fits whole read).1.symm
    · exact Nat.le_trans (Nat.le_add_right _ _) (ih later)

/-- Of a row that is cut, the blocks in front of the cut are a row still. It ends at the cut if a
block started there or the row ended, and else in front of a block that the cut goes through. -/
theorem Row.upTo (whole : t.image.Whole) (inside : c ≤ t.length) (row : t.Row head bs stop)
    (starts : head ≤ c) (ends : c ≤ stop) :
    ∃ rest, (t.upTo c).Row head (bs.filter (·.stop ≤ c)) rest ∧
      if c = stop ∨ ∃ b ∈ bs, b.offset = c then rest = c
      else rest < c ∧ ∃ b, t.blockAt? rest = .ok (some b) ∧ c < rest + b.size := by
  induction row with
  | nil head =>
    obtain rfl : head = c := Nat.le_antisymm starts ends
    exact ⟨head, .nil head, by simp⟩
  | @cons head stop b bs read rest ih =>
    obtain ⟨rfl, -⟩ := blockAt?_fits whole read
    have some := b.size_pos
    rcases Nat.lt_or_ge c (b.offset + b.size) with through | before
    · -- No later block is in front of the cut, or starts there.
      have later : ∀ b' ∈ bs, c < b'.offset := fun b' member =>
        Nat.lt_of_lt_of_le through (rest.head_le whole member)
      have none : (b :: bs).filter (·.stop ≤ c) = [] := by
        rw [List.filter_eq_nil_iff]
        rintro b' (_ | ⟨_, member⟩) front
        · exact absurd (of_decide_eq_true front) (Nat.not_le.2 through)
        · have front : b'.offset + b'.size ≤ c := of_decide_eq_true front
          have behind := later b' member
          omega
      refine ⟨b.offset, none ▸ .nil _, ?_⟩
      split
      · next between =>
        rcases between with rfl | ⟨b', member, rfl⟩
        · exact absurd rest.le (Nat.not_le.2 through)
        · rcases List.mem_cons.1 member with rfl | member
          · rfl
          · exact absurd (later b' member) (Nat.lt_irrefl _)
      · next inner =>
        have apart : b.offset ≠ c := fun same => inner (.inr ⟨b, by simp, same⟩)
        exact ⟨by omega, b, read, through⟩
    · obtain ⟨rest', row', stops⟩ := ih before ends
      have kept : (b :: bs).filter (·.stop ≤ c) = b :: bs.filter (·.stop ≤ c) :=
        List.filter_cons_of_pos (decide_eq_true before)
      refine ⟨rest', kept ▸ .cons (blockAt?_upTo whole inside read before) row', ?_⟩
      have apart : b.offset ≠ c := by omega
      simpa only [List.mem_cons, exists_eq_or_imp, apart, false_or] using stops

end Tape

open Tape

theorem Index.Lists.unique {t : Tape} {x : Index} {bs bs' : List Block} (lists : x.Lists t bs)
    (lists' : x.Lists t bs') : bs = bs' := by
  have length : bs.length = bs'.length := lists.count.symm.trans lists'.count
  refine List.ext_getElem length fun i here there => ?_
  have find := lists.find i _ (List.getElem?_eq_getElem here)
  rw [lists'.find i _ (List.getElem?_eq_getElem there)] at find
  exact (Except.ok.inj find).symm

/-- A tape that is cut can still be opened. Cut where a block starts, or not cut at all, it is a
tape of just the blocks in front of the cut, each unchanged; cut anywhere else it is refused for
the bytes that it lacks. -/
theorem cut_detected {t : Tape} {x : Index} {bs : List Block} {c : Nat} (h : Indexed t x)
    (lists : x.Lists t bs) (first : t.start ≤ c) (last : c ≤ t.length) :
    Tape.ofImage t.format (.ofBytes (t.image.bytes.extract 0 c)) = .ok (t.upTo c) ∧
      if c = t.length ∨ ∃ b ∈ bs, b.offset = c then
        ∃ y, Index.ofTape (t.upTo c) = .ok y ∧ y.Lists (t.upTo c) (bs.filter (·.stop ≤ c))
      else Index.ofTape (t.upTo c) = .error .cutShort := by
  obtain rfl := lists.unique h.lists
  have whole := h.whole
  have length := upTo_length whole last
  have opened : Tape.ofImage t.format (.ofBytes (t.image.bytes.extract 0 c)) = .ok (t.upTo c) :=
    ofImage_same h (upTo_whole t c)
      ((same_upTo whole last).part (Nat.le_refl 0) (by omega) rfl)
  refine ⟨opened, ?_⟩
  obtain ⟨rest, row, stops⟩ := h.row.upTo whole last first last
  split at stops
  · next between =>
    subst stops
    rw [if_pos between]
    have scanned := row.scanFrom length.symm #[]
    have found : (t.upTo rest).scan = ⟨_, _, _⟩ := scanned
    have indexed : Index.ofTape (t.upTo rest) = .ok (.ofBlocks (t.upTo rest).scan.blocks) := by
      rw [Index.ofTape, found]
    have lists := (Indexed.mk opened indexed).lists
    rw [found] at indexed lists
    exact ⟨_, indexed, by simpa using lists⟩
  · next inner =>
    obtain ⟨within, b, read, through⟩ := stops
    rw [if_neg inner]
    obtain ⟨fault, cut, short⟩ := blockAt?_cut whole last read within through
    have within' : rest < (t.upTo c).length := length.symm ▸ within
    have found : (t.upTo c).scan.fault = some fault := by
      rw [scan, scanAt, upTo_start, row.scanFrom_eq (Nat.le_of_lt within'), Tape.scanFrom,
        dif_pos within', cut]
    rw [Index.ofTape, found]
    exact congrArg _ short

/-- A pause and a tone, cut between the two and inside the tone. -/
theorem cut_detected_tone :
    let t : Tape := ⟨.tzx, .ofBytes (Tzx.magic ++ #[1, 20, 0x20, 7, 0, 0x12, 1, 2, 3, 0]),
      some (1, 20)⟩
    (∃ y, Index.ofTape (t.upTo 13) = .ok y ∧ y.Lists (t.upTo 13) [.tzx ⟨10, 2, .pause 7⟩]) ∧
      Index.ofTape (t.upTo 15) = .error .cutShort := by
  intro t
  have indexed : Indexed t ⟨#[10], 2⟩ := ⟨rfl, by decide +kernel⟩
  have blocks : t.scan.blocks.toList = [.tzx ⟨10, 2, .pause 7⟩, .tzx ⟨13, 4, .pureTone 513 3⟩] := by
    decide +kernel
  have lists := blocks ▸ indexed.lists
  have between := (cut_detected indexed lists (c := 13) (by decide) (by decide)).2
  have through := (cut_detected indexed lists (c := 15) (by decide) (by decide)).2
  rw [if_pos (by decide)] at between
  rw [if_neg (by decide)] at through
  exact ⟨between, through⟩

end Cassette
