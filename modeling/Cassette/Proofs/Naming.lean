import Cassette.Proofs.Relabelling
import Mathlib.Data.List.DropRight

/-! What listings show of names. A block is listed under a name just if its header can be given
another one, since both ask for the same header; the name shown is the one that was written, as far
as it could be stored (`displayName_withName`). Main statement: `rename_listed`. -/

namespace Cassette

/-- A name as it is shown once it has been stored: its first ten characters, without the blanks at
the end. -/
def shownName (name : String) : String :=
  .ofList <| ((name.toList.take 10).map fun c => if Printable c then c else '?').rdropWhile (· == ' ')

namespace Tap.Header

def shownByte (b : UInt8) : Char := if 0x20 ≤ b ∧ b ≤ 0x7E then Char.ofNat b.toNat else '?'

theorem displayName_eq (h : Header) :
    h.displayName = .ofList ((h.name.toList.map shownByte).rdropWhile (· == ' ')) := rfl

theorem shownByte_nameByte (c : Char) :
    shownByte (if Printable c then UInt8.ofNat c.toNat else 0x3F) =
      if Printable c then c else '?' := by
  by_cases printable : Printable c
  · obtain ⟨low, high⟩ := printable
    have byte : (UInt8.ofNat c.toNat).toNat = c.toNat := by
      rw [UInt8.toNat_ofNat']
      omega
    rw [if_pos ⟨low, high⟩, if_pos ⟨low, high⟩, shownByte, if_pos, byte, Char.ofNat_toNat]
    rw [UInt8.le_iff_toNat_le, UInt8.le_iff_toNat_le, byte]
    exact ⟨low, high⟩
  · rw [if_neg printable, if_neg printable]
    rfl

theorem displayName_withName (h : Header) (name : String) :
    (h.withName name).displayName = shownName name := by
  have shown : (storedName name).map shownByte =
      ((name.toList.take 10).map fun c => if Printable c then c else '?') ++
        List.replicate (10 - (name.toList.take 10).length) ' ' := by
    rw [storedName, List.rightpad, List.map_append, List.map_map, List.map_replicate,
      List.length_map]
    exact congrArg (· ++ _) (List.map_congr_left fun c _ => shownByte_nameByte c)
  rw [displayName_eq, withName, toList_nameField, shown, shownName, List.rdropWhile,
    List.rdropWhile, List.reverse_append, List.dropWhile_append_of_pos]
  intro c member
  rw [List.reverse_replicate] at member
  rw [List.eq_of_mem_replicate member, beq_self_eq_true]

end Tap.Header

namespace Summary

theorem kindOf_withName (name : String) (b : Block) : kindOf (b.withName name) = kindOf b := by
  cases b with
  | tap b =>
    simp only [kindOf, Block.withName, Option.map_map]
    rfl
  | tzx b => rfl

theorem lengthOf_withName (name : String) (b : Block) :
    lengthOf (b.withName name) = lengthOf b := by
  cases b <;> rfl

end Summary

namespace Tape

variable {t t' : Tape} {x : Index} {b : Block} {o i j : Nat}

def summaryAt (t : Tape) (x : Index) (ordinal : Nat) : Except Fault Summary := do
  let b ← x.find t ordinal
  Summary.ofBlock t ordinal b

theorem summaryAt_eq (h : Indexed t x) (found : t.scan.blocks[i]? = some b) :
    t.summaryAt x i = Summary.ofBlock t i b := by
  rw [summaryAt, h.find_of_found found]
  rfl

theorem summaryAt_behind (behind : x.count ≤ i) :
    t.summaryAt x i = .error (.noSuchBlock i x.count) := by
  rw [summaryAt, Index.find, Index.locate, if_pos behind]
  rfl

theorem Headed.summaryAt_eq (here : t.Headed i b o) (h : Indexed t x) : t.summaryAt x i =
    .ok ⟨i, Summary.kindOf b, some (Tap.headerAt t.image (o + 1)).displayName,
      Summary.lengthOf b⟩ := by
  rw [Tape.summaryAt_eq h here.found, Summary.ofBlock, here.carried h]
  rfl

theorem summaryAt_bare (h : Indexed t x) (found : t.scan.blocks[i]? = some b)
    (bare : ∀ o, ¬ t.Headed i b o) :
    t.summaryAt x i = .ok ⟨i, Summary.kindOf b, none, Summary.lengthOf b⟩ := by
  rw [summaryAt_eq h found, Summary.ofBlock, headerOf_bare h found bare]
  rfl

/-- Under another name a block is listed under that name, and all others as before. -/
theorem Headed.summaryAt_relabelled (here : t.Headed i b o) (h : Indexed t x) (name : String)
    (inside : j < x.count) : ∃ y, t.summaryAt x j = .ok y ∧ (t.relabelled o name).summaryAt x j =
      .ok (if j = i then { y with name := some (shownName name) } else y) := by
  have h' : Indexed (t.relabelled o name) x := (here.indexed h).1
  rcases eq_or_ne j i with rfl | other
  · refine ⟨_, here.summaryAt_eq h, ?_⟩
    rw [(here.again h).summaryAt_eq h', if_pos rfl, headerAt_relabelled (here.fits h) here.flag,
      Tap.Header.displayName_withName, Summary.kindOf_withName, Summary.lengthOf_withName]
  · obtain ⟨c, there, read, -⟩ := h.read inside
    obtain ⟨placed, carried⟩ : ∃ placed, t.headerOf c = .ok placed :=
      ⟨_, headerOf_eq h.whole read⟩
    have there' : (t.relabelled o name).scan.blocks[j]? = some c := here.found_other h other there
    refine ⟨⟨j, Summary.kindOf c, placed.map (·.header.displayName), Summary.lengthOf c⟩, ?_, ?_⟩
    · rw [Tape.summaryAt_eq h there, Summary.ofBlock, carried]
      rfl
    · rw [Tape.summaryAt_eq h' there', Summary.ofBlock, here.headerOf_other h other there, carried,
        if_neg other]
      rfl

/-- A block can be renamed just if it is listed under a name, and is then listed under the new one;
of it the kind and the length stay, and all other blocks are listed as before. -/
theorem rename_listed (h : Indexed t x) (i : Nat) (name : String) :
    ((∃ renamed, t.rename x i name = .ok renamed) ↔
      ∃ y shown, t.summaryAt x i = .ok y ∧ y.name = some shown) ∧
    (∀ fault, t.rename x i name = .error fault →
      fault = if i < x.count then .nameless i else .noSuchBlock i x.count) ∧
    ∀ t' came, t.rename x i name = .ok (t', came) → ∀ j < x.count,
      ∃ y, t.summaryAt x j = .ok y ∧ t'.summaryAt x j =
        .ok (if j = i then { y with name := some (shownName name) } else y) := by
  rcases rename_cases h i name with ⟨b, o, here, eq⟩ | ⟨inside, bare, eq⟩ | ⟨behind, eq⟩
  · refine ⟨⟨fun _ => ⟨_, _, here.summaryAt_eq h, rfl⟩, fun _ => ⟨_, eq⟩⟩, ?_, ?_⟩
    · intro fault failed
      rw [eq] at failed
      cases failed
    · intro t' came renamed j inside
      obtain ⟨rfl, -⟩ := Prod.mk.inj (Except.ok.inj (eq.symm.trans renamed))
      exact here.summaryAt_relabelled h name inside
  · obtain ⟨b, found, -⟩ := h.read inside
    rw [eq, summaryAt_bare h found (bare b)]
    refine ⟨⟨nofun, ?_⟩, ?_, nofun⟩
    · rintro ⟨y, shown, ⟨⟩, ⟨⟩⟩
    · rintro fault ⟨⟩
      rw [if_pos inside]
  · rw [eq, summaryAt_behind behind]
    refine ⟨⟨nofun, nofun⟩, ?_, nofun⟩
    rintro fault ⟨⟩
    rw [if_neg (Nat.not_lt.2 behind)]

def labelled : Tape :=
  ⟨.tzx, .ofBytes #[90, 88, 84, 97, 112, 101, 33, 26, 1, 20, 48, 2, 72, 105,
    16, 232, 3, 19, 0, 0, 3, 111, 108, 100, 32, 32, 32, 32, 32, 32, 32, 1, 0, 0, 128, 0, 128, 105,
    32, 0, 0], some (1, 20)⟩

/-- A tabulator is shown as a question mark, and the blanks at the end are not shown. -/
theorem rename_listed_tabulator : Indexed labelled ⟨#[10], 3⟩ ∧
    ∃ t' came, labelled.rename ⟨#[10], 3⟩ 1 "a\tb " = .ok (t', came) ∧
      labelled.summaryAt ⟨#[10], 3⟩ 1 = .ok ⟨1, "Standard", some "old", some 19⟩ ∧
      t'.summaryAt ⟨#[10], 3⟩ 1 = .ok ⟨1, "Standard", some "a?b", some 19⟩ ∧
      t'.summaryAt ⟨#[10], 3⟩ 2 = .ok ⟨2, "Stop the tape", none, none⟩ := by
  have indexed : Indexed labelled ⟨#[10], 3⟩ := ⟨by decide +kernel, by decide +kernel⟩
  have listed := rename_listed indexed 1 "a\tb "
  have before : labelled.summaryAt ⟨#[10], 3⟩ 1 = .ok ⟨1, "Standard", some "old", some 19⟩ := by
    decide +kernel
  have last : labelled.summaryAt ⟨#[10], 3⟩ 2 = .ok ⟨2, "Stop the tape", none, none⟩ := by
    decide +kernel
  obtain ⟨⟨t', came⟩, renamed⟩ := listed.1.2 ⟨_, _, before, rfl⟩
  obtain ⟨y, here, after⟩ := listed.2.2 t' came renamed 1 (by decide)
  obtain ⟨z, there, other⟩ := listed.2.2 t' came renamed 2 (by decide)
  obtain rfl := Except.ok.inj (here.symm.trans before)
  obtain rfl := Except.ok.inj (there.symm.trans last)
  have shown : shownName "a\tb " = "a?b" := by decide +kernel
  rw [if_pos rfl, shown] at after
  rw [if_neg (by decide)] at other
  exact ⟨indexed, t', came, renamed, before, after, other⟩

end Tape

end Cassette
