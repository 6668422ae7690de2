import PascalJvm.Real.Decimal

/-!
# Shortest decimals

The decimal with the fewest digits that rounds to a given finite real, and among those
the one nearest to it. The reals that round to `m · 2 ^ q` form an interval whose ends
belong to it exactly when `m` is even. For one digit, two digits and so on the two
neighbours of the value on that grid are tested; nine digits always suffice.
-/
namespace PascalJvm.Single

/-- The numbers that round to a positive finite real. -/
structure Basin where
  value : Rat
  low : Rat
  high : Rat
  closed : Bool

/-- The gap below a power of two is half the gap above it, unless the exponent is the
least one. -/
def basin (x : Single) : Basin :=
  let e : Nat := x.unsigned / 0x800000
  let f : Nat := x.unsigned % 0x800000
  let m : Nat := if e = 0 then f else 0x800000 + f
  let unit := (2 : Rat) ^ ((max e 1 : Nat) - 150 : Int)
  let below : Rat := if f = 0 && e > 1 then unit / 4 else unit / 2
  ⟨m * unit, m * unit - below, m * unit + unit / 2, m % 2 = 0⟩

def Basin.holds (b : Basin) (x : Rat) : Bool :=
  if b.closed then b.low ≤ x && x ≤ b.high else b.low < x && x < b.high

/-- The least `k` with `x < 10 ^ k`, for a positive real `x`. -/
def decimalMagnitude (x : Rat) : Int :=
  ((List.range 86).map fun n : Nat => (n : Int) - 46).find? (fun k => x < (10 : Rat) ^ k) |>.getD 40

/-- The neighbour of the value on the grid of `unit` that lies in the basin. Of two the
nearer is taken, and the upper one if both are equally near. -/
def Basin.neighbour? (b : Basin) (unit : Rat) : Option Nat :=
  let c := (b.value / unit).floor.toNat
  match b.holds (c * unit), b.holds ((c + 1 : Nat) * unit) with
  | false, false => none
  | true, false => some c
  | false, true => some (c + 1)
  | true, true => some (if 2 * b.value < (2 * c + 1 : Nat) * unit then c else c + 1)

/-- Remove trailing zeros, at most `n` of them. -/
def stripZeros : Nat → Decimal → Decimal
  | 0, d => d
  | n + 1, d => if d.digits % 10 = 0 then stripZeros n ⟨d.digits / 10, d.exponent + 1⟩ else d

/-- The shortest decimal of a positive finite real. -/
def shortest (x : Single) : Decimal :=
  let b := x.basin
  let k := decimalMagnitude b.value
  let grids := (List.range 9).map fun n : Nat => k - 1 - (n : Int)
  let found := grids.findSome? fun e => (b.neighbour? ((10 : Rat) ^ e)).map (Decimal.mk · e)
  stripZeros 9 (found.getD ⟨(b.value / (10 : Rat) ^ (k - 9)).floor.toNat, k - 9⟩)

end PascalJvm.Single
