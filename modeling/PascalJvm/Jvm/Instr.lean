import PascalJvm.Real.Single
import PascalJvm.Signature

/-!
# Instructions

The instructions of a method body. They name classes, fields and methods by their role in
the program; descriptors and class names appear only in a listing. `Instr.effect` is the
effect of an instruction on the depth of the operand stack.
-/
namespace PascalJvm.Jvm

/-- How a value sits in a slot, a field or an array element. -/
inductive Kind
  | int
  | float
  | bool
  | char
  | ref
deriving DecidableEq, Repr

def Kind.ofTy : Ty → Kind
  | .basic .integer | .enum _ => .int
  | .basic .real => .float
  | .basic .boolean => .bool
  | .basic .char => .char
  | .basic .string | .record .. | .array .. => .ref

/-- The classes that scalar values are wrapped in before they are printed. -/
inductive Wrapper
  | int
  | float
  | bool
  | char
deriving DecidableEq, Repr

/-- The wrapper of a scalar; a value that is an object needs none. -/
def Wrapper.ofKind? : Kind → Option Wrapper
  | .int => some .int
  | .float => some .float
  | .bool => some .bool
  | .char => some .char
  | .ref => none

/-- A place in a method body, known by its number. -/
abbrev Label := Nat

inductive Relation
  | eq
  | ne
  | lt
  | le
  | gt
  | ge
deriving DecidableEq, Repr

inductive ArithOp
  | add
  | sub
  | mul
  | div
  | rem
  | neg
  | and
  | or
  | xor
deriving DecidableEq, Repr

/-- Operations of the host's class library. -/
inductive Primitive
  | standardOutput
  | standardInput
  /-- makes the scanner over standard input that the whole program shares -/
  | openInput
  | objectInit
  | printPlain
  | printLine
  | printFormatted
  | readInt
  | readFloat
  | readBool
  | readToken
  | readLine
  | useDelimiter
  | resetDelimiter
  | charAt
  | compareStrings
  | wrap (w : Wrapper)
deriving DecidableEq, Repr

/-- What an instruction takes from the operand stack and leaves on it. While it works, it may
reach `scratch` places above what it leaves. -/
structure Effect where
  pops : Nat
  pushes : Nat
  scratch : Nat := 0
deriving DecidableEq, Repr

def Primitive.effect : Primitive → Effect
  | standardOutput | standardInput => ⟨0, 1, 0⟩
  | openInput => ⟨0, 0, 3⟩
  | objectInit => ⟨1, 0, 0⟩
  | printPlain => ⟨2, 0, 0⟩
  | printLine => ⟨1, 0, 0⟩
  | printFormatted => ⟨3, 1, 0⟩
  | readInt | readFloat | readBool | readToken | readLine => ⟨1, 1, 0⟩
  | useDelimiter => ⟨2, 1, 0⟩
  | resetDelimiter => ⟨1, 1, 0⟩
  | charAt | compareStrings => ⟨2, 1, 0⟩
  | wrap _ => ⟨1, 1, 0⟩

/-- The class that a field belongs to. -/
inductive Owner
  | program
  | record (name : String)
deriving DecidableEq, Repr

structure FieldRef where
  owner : Owner
  name : String
  ty : Ty
deriving Repr

/-- A static field of the program class. -/
def FieldRef.global (name : String) (ty : Ty) : FieldRef := ⟨.program, name, ty⟩

/-- A field of the class of a record. -/
def FieldRef.member (record name : String) (ty : Ty) : FieldRef := ⟨.record record, name, ty⟩

inductive ParamDesc
  | value (ty : Ty)
  /-- a scalar in an array with one element -/
  | cell (ty : Ty)
deriving Repr

structure MethodRef where
  name : String
  params : List ParamDesc
  result : Option Ty
deriving Repr

def ParamDesc.ofPassing (p : Passing) : ParamDesc := if p.inCell then .cell p.ty else .value p.ty

/-- The method of a routine. -/
def MethodRef.ofSignature (s : Signature) : MethodRef :=
  ⟨s.method, s.params.map .ofPassing, s.result⟩

inductive Instr
  | label (l : Label)
  | goto (l : Label)
  /-- compares the top of the stack with zero -/
  | ifZero (r : Relation) (l : Label)
  /-- compares two integers -/
  | ifCompare (r : Relation) (l : Label)
  | lookupSwitch (table : List (Int32 × Label)) (default : Label)
  | ret (kind : Option Kind)
  | pushInt (i : Int32)
  | pushReal (x : Single)
  | pushText (s : String)
  | load (kind : Kind) (slot : Nat)
  | store (kind : Kind) (slot : Nat)
  | getStatic (f : FieldRef)
  | putStatic (f : FieldRef)
  | getField (f : FieldRef)
  | putField (f : FieldRef)
  | arrayLoad (kind : Kind)
  | arrayStore (kind : Kind)
  /-- an array with elements of this type; its length is on the stack -/
  | newArray (elem : Ty)
  | newObjectArray
  /-- allocates and constructs a record -/
  | newRecord (name : String)
  | arith (op : ArithOp) (kind : Kind)
  | intToFloat
  | compareFloats
  | dup
  | pop
  | invoke (p : Primitive)
  | invokeStatic (m : MethodRef)
deriving Repr

namespace Instr

def effect : Instr → Effect
  | label _ | goto _ => ⟨0, 0, 0⟩
  | ifZero .. => ⟨1, 0, 0⟩
  | ifCompare .. => ⟨2, 0, 0⟩
  | lookupSwitch .. => ⟨1, 0, 0⟩
  | ret kind => ⟨if kind.isSome then 1 else 0, 0, 0⟩
  | pushInt _ | pushReal _ | pushText _ => ⟨0, 1, 0⟩
  | load .. | getStatic _ => ⟨0, 1, 0⟩
  | store .. | putStatic _ => ⟨1, 0, 0⟩
  | getField _ => ⟨1, 1, 0⟩
  | putField _ => ⟨2, 0, 0⟩
  | arrayLoad _ => ⟨2, 1, 0⟩
  | arrayStore _ => ⟨3, 0, 0⟩
  | newArray _ | newObjectArray => ⟨1, 1, 0⟩
  | newRecord _ => ⟨0, 1, 1⟩
  | arith .neg _ => ⟨1, 1, 0⟩
  | arith .. => ⟨2, 1, 0⟩
  | intToFloat => ⟨1, 1, 0⟩
  | compareFloats => ⟨2, 1, 0⟩
  | dup => ⟨1, 2, 0⟩
  | pop => ⟨1, 0, 0⟩
  | invoke p => p.effect
  | invokeStatic m => ⟨m.params.length, if m.result.isSome then 1 else 0, 0⟩

/-- The labels that control may go to from here, besides the next instruction. -/
def targets : Instr → List Label
  | goto l | ifZero _ l | ifCompare _ l => [l]
  | lookupSwitch table default => table.map Prod.snd ++ [default]
  | _ => []

/-- Control never goes on to the next instruction. -/
def endsFlow : Instr → Bool
  | goto _ | lookupSwitch .. | ret _ => true
  | _ => false

/-- The label that the instruction binds. -/
def bound? : Instr → Option Label
  | label l => some l
  | _ => none

end Instr
end PascalJvm.Jvm
