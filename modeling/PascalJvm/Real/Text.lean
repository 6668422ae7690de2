import PascalJvm.Real.Shortest

/-!
# The text of a real

Reals are written with the digits of their shortest decimal: positionally from `10 ^ -4`
up to `10 ^ 16`, with at least one digit after the point, and otherwise with an exponent.
`Single.read?` reads this form back, and any other decimal text with it.
-/
namespace PascalJvm

/-- Where positional writing ends, as exponents of the first digit. -/
structure RealLayout where
  leastPositional : Int
  mostPositional : Int

/-- Reals from `0.0001` up to but not including `10 ^ 16` are written positionally. -/
def realLayout : RealLayout := ⟨-4, 15⟩

namespace Decimal

def zeros (n : Nat) : String := String.ofList (List.replicate n '0')

/-- Write a positive decimal without trailing zeros. -/
def text (layout : RealLayout) (d : Decimal) : String :=
  let ds := Nat.toDigits 10 d.digits
  let first : Int := d.exponent + ds.length - 1
  if layout.leastPositional ≤ first && first ≤ layout.mostPositional then
    if first < 0 then "0." ++ zeros (-first - 1).toNat ++ String.ofList ds
    else
      let whole := (first + 1).toNat
      if ds.length ≤ whole then String.ofList ds ++ zeros (whole - ds.length) ++ ".0"
      else String.ofList (ds.take whole) ++ "." ++ String.ofList (ds.drop whole)
  else
    let tail := match ds.drop 1 with
      | [] => ""
      | rest => "." ++ String.ofList rest
    String.ofList (ds.take 1) ++ tail ++ "e" ++ toString first

/-- The number written by a run of decimal digits. -/
def ofDigits (cs : List Char) : Nat :=
  cs.foldl (fun n c => 10 * n + (c.toNat - '0'.toNat)) 0

/-- The decimal written as whole digits, digits after the point and an exponent. -/
def ofParts (whole fraction : List Char) (exponent : Int) : Decimal :=
  ⟨ofDigits (whole ++ fraction), exponent - fraction.length⟩

end Decimal

namespace Single

/-- The text of a real. Only a finite real or an infinity shows its sign. -/
def text (x : Single) : String :=
  if x.isNaN then "NaN"
  else
    let body :=
      if x.isInfinite then "inf"
      else if x.unsigned = 0 then "0.0"
      else (shortest ⟨x.bits &&& 0x7FFFFFFF⟩).text realLayout
    if x.isNegative then "-" ++ body else body

/-- An exponent part: `e` or `E`, a sign, digits. The empty text is the exponent 0. -/
def readExponent? : List Char → Option Int
  | [] => some 0
  | c :: cs =>
      if c = 'e' || c = 'E' then
        let (negative, ds) := match cs with
          | '-' :: ds => (true, ds)
          | '+' :: ds => (false, ds)
          | ds => (false, ds)
        if ds.isEmpty || !ds.all Char.isDigit then none
        else some (if negative then -(Decimal.ofDigits ds : Int) else Decimal.ofDigits ds)
      else none

/-- A decimal without sign. -/
def readUnsigned? (cs : List Char) : Option Single :=
  if cs = "inf".toList then some infinity
  else if cs = "NaN".toList then some nan
  else
    let whole := cs.takeWhile Char.isDigit
    let (fraction, rest) := match cs.dropWhile Char.isDigit with
      | '.' :: rest => (rest.takeWhile Char.isDigit, rest.dropWhile Char.isDigit)
      | rest => ([], rest)
    if whole.isEmpty && fraction.isEmpty then none
    else (readExponent? rest).map fun e => (Decimal.ofParts whole fraction e).nearest

/-- Read a real, with an optional sign before it. -/
def read? (s : String) : Option Single :=
  match s.toList with
  | '-' :: cs => (readUnsigned? cs).map neg
  | '+' :: cs => readUnsigned? cs
  | cs => readUnsigned? cs

end Single
end PascalJvm
