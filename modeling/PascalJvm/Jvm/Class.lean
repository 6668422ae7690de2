import PascalJvm.Jvm.Assembler

/-!
# Classes

A compiled program is a list of classes: the class of the program, with the global variables
as static fields and a method for each routine, and one class for each record type.
-/
namespace PascalJvm.Jvm

structure FieldDecl where
  name : String
  ty : Ty
deriving Repr

inductive MethodRole
  | constructor
  | main
  | routine (ref : MethodRef)
deriving Repr

structure Method where
  role : MethodRole
  code : Code
  maxLocals : Nat
deriving Repr

structure ClassFile where
  role : Owner
  fields : List FieldDecl
  methods : List Method
deriving Repr

end PascalJvm.Jvm
