/-! The blocks marked for editing: a set of block numbers, kept in ascending order. -/

namespace Cassette

structure Selection where
  ordinals : List Nat
  ascending : ordinals.Pairwise (· < ·)
  deriving DecidableEq

namespace Selection

/-- Puts a number into its place in an ascending list, unless it is there. -/
def insertInto (n : Nat) : List Nat → List Nat
  | [] => [n]
  | m :: rest =>
    if n < m then n :: m :: rest
    else if n = m then m :: rest
    else m :: insertInto n rest

theorem mem_insertInto {n k : Nat} {l : List Nat} : k ∈ insertInto n l ↔ k = n ∨ k ∈ l := by
  induction l with
  | nil => simp [insertInto]
  | cons m rest ih => grind [insertInto]

theorem ascending_insertInto {n : Nat} {l : List Nat} (h : l.Pairwise (· < ·)) :
    (insertInto n l).Pairwise (· < ·) := by
  induction l with
  | nil => simp [insertInto]
  | cons m rest ih =>
    have hm := List.pairwise_cons.1 h
    unfold insertInto
    split
    · next hlt =>
      refine List.pairwise_cons.2 ⟨fun k hk => ?_, h⟩
      rcases List.mem_cons.1 hk with rfl | hk
      · exact hlt
      · exact Nat.lt_trans hlt (hm.1 k hk)
    · split
      · exact h
      · refine List.pairwise_cons.2 ⟨fun k hk => ?_, ih hm.2⟩
        rcases mem_insertInto.1 hk with rfl | hk
        · omega
        · exact hm.1 k hk

instance : Membership Nat Selection := ⟨fun s n => n ∈ s.ordinals⟩

instance (n : Nat) (s : Selection) : Decidable (n ∈ s) :=
  inferInstanceAs (Decidable (n ∈ s.ordinals))

def empty : Selection := ⟨[], .nil⟩

def isEmpty (s : Selection) : Bool := s.ordinals.isEmpty

def size (s : Selection) : Nat := s.ordinals.length

def insert (s : Selection) (n : Nat) : Selection :=
  ⟨insertInto n s.ordinals, ascending_insertInto s.ascending⟩

def erase (s : Selection) (n : Nat) : Selection :=
  ⟨s.ordinals.filter (· != n), s.ascending.filter _⟩

/-- Marks an unmarked block and unmarks a marked one. -/
def toggle (s : Selection) (n : Nat) : Selection := if n ∈ s then s.erase n else s.insert n

/-- The set of the numbers in a list. -/
def ofList (ns : List Nat) : Selection := ns.foldl insert empty

@[simp] theorem mem_insert {s : Selection} {n k : Nat} : k ∈ s.insert n ↔ k = n ∨ k ∈ s :=
  mem_insertInto

@[simp] theorem mem_erase {s : Selection} {n k : Nat} : k ∈ s.erase n ↔ k ∈ s ∧ k ≠ n := by
  change k ∈ s.ordinals.filter (· != n) ↔ k ∈ s.ordinals ∧ k ≠ n
  simp

end Selection

end Cassette
