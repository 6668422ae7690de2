import PascalJvm.Real.Single

/-!
# Decimals

A decimal is `digits · 10 ^ exponent`. `Decimal.nearest` rounds it to the nearest real
in one step, a half to the even neighbour; beyond the largest finite real lies infinity.
All arithmetic is exact.
-/
namespace PascalJvm

structure Decimal where
  digits : Nat
  exponent : Int
deriving DecidableEq, Repr

namespace Decimal

def value (d : Decimal) : Rat := d.digits * (10 : Rat) ^ d.exponent

/-- The nearest integer to a nonnegative number, a half to the even neighbour. -/
def roundHalfEven (x : Rat) : Nat :=
  let below := x.floor.toNat
  let excess := 2 * (x - below)
  if excess < 1 then below else if 1 < excess then below + 1 else below + below % 2

/-- The greatest `k` with `2 ^ k ≤ x`, for positive `x`. -/
def binaryMagnitude (x : Rat) : Int :=
  let k := (x.num.toNat.log2 : Int) - x.den.log2
  if x < (2 : Rat) ^ k then k - 1 else k

/-- The bits of the nearest real to a positive number. A significand has 24 bits, and
the exponent of its last bit is at least -149. A carry out of the significand lands
in the exponent, which is where it belongs. -/
def nearestBits (x : Rat) : Nat :=
  let e := max (binaryMagnitude x - 23) (-149)
  (e + 149).toNat * 0x800000 + roundHalfEven (x / (2 : Rat) ^ e)

/-- Above `10 ^ 39` everything is infinite and below `10 ^ -46` everything is zero, so the
power of ten stays small whatever the exponent. -/
def nearest (d : Decimal) : Single :=
  if d.digits = 0 then .zero
  else
    let top := d.exponent + (Nat.toDigits 10 d.digits).length
    if top > 39 then .infinity
    else if top < -45 then .zero
    else
      let bits := nearestBits d.value
      if bits < 0x7F800000 then ⟨UInt32.ofNat bits⟩ else .infinity

end Decimal
end PascalJvm
