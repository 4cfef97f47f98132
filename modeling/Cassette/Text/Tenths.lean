/-! A quotient of whole numbers with one decimal, as binary floating point of double
precision has it. A value is first rounded to 53 significant bits, ties to even, and
the decimal is then rounded from that exact value, ties to even again. -/

namespace Cassette.Text

/-- A quotient rounded to a whole number, a tie to the even neighbour. -/
def roundDiv (num den : Nat) : Nat :=
  let quotient := num / den
  let twice := 2 * (num % den)
  if twice < den ∨ twice = den ∧ quotient % 2 = 0 then quotient else quotient + 1

/-- The number of bits of a number. -/
def bitLength (n : Nat) : Nat := if n = 0 then 0 else n.log2 + 1

/-- The value of double precision nearest to a quotient, as a fraction. Scaled by a
power of two the quotient has 53 or 54 bits before its point, and 53 are kept. -/
def nearestDouble (num den : Nat) : Nat × Nat :=
  let up := 53 + bitLength den - bitLength num
  let down := bitLength num - (53 + bitLength den)
  let n := num <<< up
  let d := den <<< down
  let kept := if bitLength (n / d) ≤ 53 then roundDiv n d else 2 * roundDiv n (2 * d)
  (kept <<< down, 1 <<< up)

/-- `num / den` with one decimal, after both the dividend and the quotient have been
rounded to double precision; the divisor has at most 32 bits. -/
def tenths (num den : Nat) : String :=
  if den = 0 then (if num = 0 then "NaN" else "inf")
  else
    let (n, scale) := nearestDouble num 1
    let (q, d) := nearestDouble n (scale * den)
    let t := roundDiv (10 * q) d
    s!"{t / 10}.{t % 10}"

end Cassette.Text
