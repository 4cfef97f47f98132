import Cassette.Index
import Cassette.Summary

/-! Edits of a tape. Renaming overwrites a header in place, name and checksum and
nothing else. Rewriting copies the file header and then whole blocks in a given
order, so what comes out is a tape of just those blocks. -/

namespace Cassette

/-- What became of a new name. -/
inductive Renaming
  | whole
  /-- The name was longer than the field. -/
  | cut
  deriving DecidableEq, Repr

/-- Gives the header of a block a new name. -/
def Tape.rename (t : Tape) (x : Index) (ordinal : Nat) (name : String) :
    Except Fault (Tape × Renaming) := do
  let b ← x.find t ordinal
  match ← t.headerOf b with
  | none => .error (.nameless ordinal)
  | some placed =>
    let image ← t.image.overwrite placed.offset ((placed.header.withName name).payload placed.flag)
    return ({ t with image }, if Tap.Header.nameFits name then .whole else .cut)

/-- Where the head stands after `rename`: behind the header written, or the block read. -/
def Tape.headAfterRename (t : Tape) (x : Index) (ordinal head : Nat) : Nat :=
  match x.find t ordinal with
  | .error _ => x.headAfterFind t ordinal head
  | .ok b =>
    match t.headerOf b with
    | .ok (some placed) => placed.offset + Tap.headerLength.toNat
    | _ => t.headAfterHeaderOf b (x.headAfterFind t ordinal head)

/-- What copying blocks wrote, where the head stands behind it, and how it went. -/
structure Copy where
  out : Bytes
  head : Nat
  result : Except Fault Unit

namespace Copy

/-- Adds the bytes of a run; if there are fewer than that, what is there. -/
def range (c : Copy) (image : Image) (offset count : Nat) : Copy :=
  let run := image.slice offset count
  { out := c.out ++ run
    head := offset + run.size
    result := if run.size = count then .ok () else .error .cutShort }

/-- Adds blocks in order up to the first that fails. -/
def blocks (image : Image) (row : Array Block) : Copy → List Nat → Copy
  | c, [] => c
  | c, ordinal :: rest =>
    match row[ordinal]? with
    | none => { c with result := .error (.noSuchBlock ordinal row.size) }
    | some b =>
      let c := c.range image b.offset b.size
      match c.result with
      | .error _ => c
      | .ok () => blocks image row c rest

end Copy

/-- The file header and the blocks in order. -/
def Tape.splice (t : Tape) (x : Index) (order : List Nat) : Copy :=
  let s := t.scan
  match s.fault with
  | some fault => ⟨#[], s.head, .error (.ofRead fault)⟩
  | none =>
    if s.blocks.size ≠ x.count then ⟨#[], s.head, .error (.indexMismatch s.blocks.size)⟩
    else
      let c := Copy.range ⟨#[], s.head, .ok ()⟩ t.image 0 t.start
      match c.result with
      | .error _ => c
      | .ok () => Copy.blocks t.image s.blocks c order

end Cassette
