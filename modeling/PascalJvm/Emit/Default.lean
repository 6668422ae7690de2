import PascalJvm.Emit.Supply

/-!
# Initial values

Every variable starts with a value: zero, the empty text, a new record, or an array. The
elements of an array of objects are made one by one in a loop.
-/
namespace PascalJvm.Emit

open Jvm

/-- Fill the array on the stack with `len` new elements, and leave it there. -/
def fillArray (len : Nat) (elem : Gen (List Instr)) : Gen (List Instr) :=
  releasing do
    let array ← freshSlot
    let index ← freshSlot
    let top ← freshLabel
    let exit ← freshLabel
    let code ← elem
    return [.store .ref array, .pushInt 0, .store .int index, .label top, .load .int index,
      .pushInt (Int32.ofNat len), .ifCompare .ge exit, .load .ref array, .load .int index] ++
      code ++ [.arrayStore .ref, .load .int index, .pushInt 1, .arith .add .int,
        .store .int index, .goto top, .label exit, .load .ref array]

/-- Push the initial value of a variable. -/
def initial : Ty → Gen (List Instr)
  | .basic .real => return [.pushReal .zero]
  | .basic .string => return [.pushText ""]
  | .basic _ | .enum _ => return [.pushInt 0]
  | .record name _ => return [.newRecord name]
  | .array _ len elem => do
      let start : List Instr := [.pushInt (Int32.ofNat len), .newArray elem]
      if Kind.ofTy elem = .ref then
        return start ++ (← fillArray len (initial elem))
      else return start

end PascalJvm.Emit
