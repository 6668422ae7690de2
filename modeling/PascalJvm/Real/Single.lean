/-!
# Reals

A real is an IEEE value of single precision. It is kept as its bit pattern, so that
equality is decidable and tells the two zeros apart. Arithmetic is the machine's.
-/
namespace PascalJvm

structure Single where
  bits : UInt32
deriving DecidableEq, Repr, Inhabited

namespace Single

def zero : Single := ⟨0⟩
def one : Single := ⟨0x3F800000⟩
def two : Single := ⟨0x40000000⟩
def infinity : Single := ⟨0x7F800000⟩
def nan : Single := ⟨0x7FC00000⟩

def ofFloat32 (x : Float32) : Single := ⟨x.toBits⟩
def toFloat32 (x : Single) : Float32 := Float32.ofBits x.bits

def add (x y : Single) : Single := ofFloat32 (x.toFloat32 + y.toFloat32)
def sub (x y : Single) : Single := ofFloat32 (x.toFloat32 - y.toFloat32)
def mul (x y : Single) : Single := ofFloat32 (x.toFloat32 * y.toFloat32)
def div (x y : Single) : Single := ofFloat32 (x.toFloat32 / y.toFloat32)

/-- Changes the sign, also of a zero. -/
def neg (x : Single) : Single := ⟨x.bits ^^^ 0x80000000⟩

/-- The nearest real to an integer. -/
def ofInt32 (i : Int32) : Single := ofFloat32 i.toFloat32

def isNegative (x : Single) : Bool := x.bits ≥ 0x80000000

/-- The bits without the sign. -/
def unsigned (x : Single) : Nat := (x.bits &&& 0x7FFFFFFF).toNat

def isNaN (x : Single) : Bool := x.unsigned > 0x7F800000
def isInfinite (x : Single) : Bool := x.unsigned = 0x7F800000

end Single
end PascalJvm
