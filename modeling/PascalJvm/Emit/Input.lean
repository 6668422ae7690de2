import PascalJvm.Emit.Expression

/-!
# Code for input

Values are read with the scanner's method for their type. A single character is the first
one of a token, which is read with the empty delimiter; the usual delimiter is restored
right after it.
-/
namespace PascalJvm.Emit

open Jvm Typed

/-- The scanner's method for values of a type. -/
def reader : Ty → Primitive
  | .basic .integer => .readInt
  | .basic .real => .readFloat
  | .basic .boolean => .readBool
  | _ => .readToken

/-- Read a value and store it. -/
def readValue (d : Designator) : List Instr :=
  [.invoke .standardInput, .invoke (reader d.ty)] ++ store d.ty d.place

/-- Read a character and store it. -/
def readChar (d : Designator) : List Instr :=
  [.invoke .standardInput, .pushText "", .invoke .useDelimiter, .pop, .invoke .standardInput,
    .invoke .readToken, .pushInt 0, .invoke .charAt] ++ store d.ty d.place ++
    [.invoke .standardInput, .invoke .resetDelimiter, .pop]

def readTarget (d : Designator) : Gen (List Instr) := do
  let codeAddress ← address d.place
  return codeAddress ++ if d.ty.is .char then readChar d else readValue d

def readTargets : List Designator → Gen (List Instr)
  | [] => return []
  | d :: rest => do
      let code ← readTarget d
      return code ++ (← readTargets rest)

/-- Skip the rest of the line. -/
def skipLine : List Instr := [.invoke .standardInput, .invoke .readLine, .pop]

def read (line : Bool) (targets : List Designator) : Gen (List Instr) := do
  return (← readTargets targets) ++ if line then skipLine else []

end PascalJvm.Emit
