/-! Byte strings and the numbers stored in them. Every number of a tape image is
written least significant byte first, in two, three or four bytes. `value` reads
such a run and `digits` writes one; `value_digits` says that a number comes back
modulo the width it was written in. -/

namespace Cassette

/-- The contents of a tape image, or any run of them. -/
abbrev Bytes := Array UInt8

namespace LittleEndian

/-- The number a run of bytes denotes, its first byte the least significant. -/
def value : List UInt8 → Nat
  | [] => 0
  | b :: rest => b.toNat + 256 * value rest

/-- The lowest `width` base-256 digits of a number, least significant first. -/
def digits : (width : Nat) → Nat → List UInt8
  | 0, _ => []
  | width + 1, n => UInt8.ofNat n :: digits width (n / 256)

/-- How many numbers so many bytes can hold. -/
def capacity : (width : Nat) → Nat
  | 0 => 1
  | width + 1 => 256 * capacity width

@[simp] theorem digits_length (width n : Nat) : (digits width n).length = width := by
  induction width generalizing n with
  | zero => rfl
  | succ width ih => simp [digits, ih]

/-- What is written in `width` bytes reads back modulo what they can hold. -/
theorem value_digits (width n : Nat) : value (digits width n) = n % capacity width := by
  induction width generalizing n with
  | zero => simp [digits, value, capacity, Nat.mod_one]
  | succ width ih =>
    have low : (UInt8.ofNat n).toNat = n % 256 := UInt8.toNat_ofNat'
    rw [digits, value, ih, low, capacity, Nat.mod_mul]

end LittleEndian

end Cassette
