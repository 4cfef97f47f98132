import Cassette.Fault
import Cassette.Selection

/-! The order of blocks an edit asks for, as the list of the old block numbers in their
new places. -/

namespace Cassette.Order

/-- The first selected block must exist; nothing selected is a fault of its own. -/
def check (count : Nat) (selection : Selection) : Except Fault Unit :=
  if selection.isEmpty then .error .nothingSelected
  else
    match selection.ordinals.find? (count ≤ ·) with
    | some ordinal => .error (.noSuchBlock ordinal count)
    | none => .ok ()

/-- The blocks that are not selected, in order. -/
def unselected (count : Nat) (selection : Selection) : List Nat :=
  (List.range count).filter (· ∉ selection)

/-- The order after the selected blocks move together in front of block `before`, or
to the end if `before` is the number of blocks. -/
def move (count : Nat) (selection : Selection) (before : Nat) : Except Fault (List Nat) :=
  match check count selection with
  | .error fault => .error fault
  | .ok () =>
    if count < before then .error (.noSuchBlock before count)
    else
      let others := unselected count selection
      .ok (others.filter (· < before) ++ selection.ordinals ++ others.filter (before ≤ ·))

/-- The order after the selected blocks are taken out. -/
def remove (count : Nat) (selection : Selection) : Except Fault (List Nat) :=
  match check count selection with
  | .error fault => .error fault
  | .ok () => .ok (unselected count selection)

end Cassette.Order
