import Cassette.Bytes

/-! Bytes as bits, the most significant first, which is the order a tape carries them
in. Main statements: `byteOf_bitsOf`, packing undoes unpacking, and `bitsOf_byteOf`, unpacking
undoes packing. -/

namespace Cassette.Bits

/-- Bit `i` of a byte, counted from the most significant. -/
def bit (b : UInt8) (i : Nat) : Bool := b.toNat.testBit (7 - i)

/-- The eight bits of a byte. -/
def bitsOf (b : UInt8) : List Bool := (List.range 8).map (bit b)

/-- The byte with these bits, the first the most significant. -/
def byteOf (bits : List Bool) : UInt8 :=
  UInt8.ofNat (bits.foldl (fun n b => 2 * n + b.toNat) 0)

theorem byteOf_bitsOf (b : UInt8) : byteOf (bitsOf b) = b := by
  have all : ∀ n : Fin 256, byteOf (bitsOf (UInt8.ofNat n)) = UInt8.ofNat n := by decide +kernel
  simpa using all ⟨b.toNat, b.toNat_lt⟩

theorem bitsOf_byteOf {bits : List Bool} (eight : bits.length = 8) :
    bitsOf (byteOf bits) = bits := by
  have all : ∀ a b c d e f g h : Bool,
      bitsOf (byteOf [a, b, c, d, e, f, g, h]) = [a, b, c, d, e, f, g, h] := by decide +kernel
  match bits, eight with
  | [a, b, c, d, e, f, g, h], _ => exact all a b c d e f g h

end Cassette.Bits
