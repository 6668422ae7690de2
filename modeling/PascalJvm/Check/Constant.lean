import PascalJvm.Check.Error
import PascalJvm.Source.Tree

/-!
# Constants

Values of constant expressions. Integer arithmetic is exact: a result that does not fit in 32
bits, or a division by zero, is an error and never wraps. An integer next to a real is
widened. Ordinal values are compared by their ordinal numbers, whatever their types.
-/
namespace PascalJvm

inductive Constant
  | int (value : Int32)
  | real (value : Single)
  | char (code : Nat)
  | bool (value : Bool)
  | text (value : String)
  | enum (ordinal : Int32) (ty : String)
deriving DecidableEq, Repr

namespace Constant

/-- The integer with this value, if there is one. -/
def fit? (n : Int) : Option Int32 :=
  if -0x80000000 ≤ n && n < 0x80000000 then some (Int32.ofInt n) else none

/-- The ordinal number of a value of an ordinal type. -/
def ordinal? : Constant → Option Int32
  | int i => some i
  | char c => fit? c
  | bool b => some (if b then 1 else 0)
  | enum i _ => some i
  | real _ | text _ => none

/-- A numeric value as a real. -/
def real? : Constant → Option Single
  | int i => some (.ofInt32 i)
  | real x => some x
  | _ => none

def ty : Constant → Ty
  | int _ => .integer
  | real _ => .real
  | char _ => .char
  | bool _ => .boolean
  | text _ => .string
  | enum _ name => .enum name

/-- Integer operations. Dividing the least integer by -1 has no result, and neither has the
remainder of that division. -/
def integerOp? : BinOp → Option (Int32 → Int32 → Option Int32)
  | .add => some fun x y => fit? (x.toInt + y.toInt)
  | .sub => some fun x y => fit? (x.toInt - y.toInt)
  | .mul => some fun x y => fit? (x.toInt * y.toInt)
  | .intDiv => some fun x y => if y = 0 then none else fit? (x.toInt.tdiv y.toInt)
  | .mod => some fun x y =>
      if y = 0 then none
      else (fit? (x.toInt.tdiv y.toInt)).bind fun _ => fit? (x.toInt.tmod y.toInt)
  | _ => none

def realOp? : BinOp → Option (Single → Single → Single)
  | .add => some .add
  | .sub => some .sub
  | .mul => some .mul
  | .div => some .div
  | _ => none

def booleanOp? : BinOp → Option (Bool → Bool → Bool)
  | .and => some (· && ·)
  | .or => some (· || ·)
  | _ => none

def compareOp? : BinOp → Option (Int → Int → Bool)
  | .eq => some (· == ·)
  | .ne => some (· != ·)
  | .lt => some (· < ·)
  | .le => some (· ≤ ·)
  | .gt => some (· > ·)
  | .ge => some (· ≥ ·)
  | _ => none

/-- The value or else the error. -/
def orError {α : Type} (e : CheckError) : Option α → Except CheckError α
  | some a => .ok a
  | none => .error e

def realBinary (f : Single → Single → Single) (a b : Constant) : Except CheckError Constant := do
  let x ← orError .constArithmetic a.real?
  let y ← orError .constArithmetic b.real?
  return real (f x y)

def compareBinary (f : Int → Int → Bool) (a b : Constant) : Except CheckError Constant := do
  let x ← orError .constComparison a.ordinal?
  let y ← orError .constComparison b.ordinal?
  return bool (f x.toInt y.toInt)

/-- A binary operator on values that are not both integers, or are no integer operator. -/
def mixedBinary (op : BinOp) (a b : Constant) : Except CheckError Constant :=
  match realOp? op, compareOp? op, booleanOp? op, a, b with
  | some f, _, _, a, b => realBinary f a b
  | none, some f, _, a, b => compareBinary f a b
  | none, none, some f, bool x, bool y => .ok (bool (f x y))
  | _, _, _, _, _ => .error .constOperator

def binary (op : BinOp) (a b : Constant) : Except CheckError Constant :=
  match integerOp? op, a, b with
  | some f, int x, int y => (orError .constOverflow (f x y)).map int
  | _, a, b => mixedBinary op a b

def unary (op : UnOp) (a : Constant) : Except CheckError Constant :=
  match op, a with
  | .neg, int i => (orError .constOverflow (fit? (-i.toInt))).map int
  | .neg, real x => .ok (real x.neg)
  | .neg, _ => .error .constNegation
  | .not, bool b => .ok (bool !b)
  | .not, _ => .error .constComplement

/-- The two functions that constants know, in any letter case. -/
inductive Builtin
  | ord
  | chr
deriving DecidableEq, Repr

def Builtin.ofName? (name : String) : Option Builtin :=
  match String.ofList (name.toList.map Char.toLower) with
  | "ord" => some .ord
  | "chr" => some .chr
  | _ => none

def apply (function : String) (a : Constant) : Except CheckError Constant :=
  match Builtin.ofName? function with
  | some .ord => (orError .ordArgument a.ordinal?).map int
  | some .chr =>
      match a with
      | int i =>
          if 0 ≤ i.toInt && i.toInt ≤ 0xFFFF then .ok (char i.toInt.toNat) else .error .chrConstant
      | _ => .error .chrConstant
  | none => .error (.constFunction function)

/-- The value of a constant expression, given the values of the constants it may name. -/
def eval (known : List (String × Constant)) : Source.ConstExpr → Except CheckError Constant
  | .int i => .ok (int i)
  | .real x => .ok (real x)
  | .bool b => .ok (bool b)
  | .char c => .ok (char c)
  | .text s => .ok (text s)
  | .name n => orError (.unknown .const n) (known.lookup n)
  | .call f [x] => do apply f (← eval known x)
  | .call f _ => .error (.constArity f)
  | .unary op x => do unary op (← eval known x)
  | .binary op a b => do binary op (← eval known a) (← eval known b)

end Constant
end PascalJvm
