import PascalJvm.Emit.Expression

/-!
# Code for output

Text alone is printed as it is. As soon as one value is written with it, everything goes
into one format text, in which a percent sign of the text is doubled, and the values go into
an array of objects, in order.
-/
namespace PascalJvm.Emit

open Jvm Typed

/-- The conversion letter for values of a type. -/
def conversion : Ty → Char
  | .basic .integer => 'd'
  | .basic .real => 'f'
  | .basic .boolean => 'b'
  | .basic .char => 'c'
  | _ => 's'

def decimalsText : Option Nat → String
  | none => ""
  | some n => "." ++ toString n

def widthText : Option FieldWidth → String
  | none => ""
  | some w => (if w.left then "-" else "") ++ toString w.width ++ decimalsText w.decimals

/-- The directive that prints a value of a type. -/
def directive (t : Ty) (width : Option FieldWidth) : String :=
  "%" ++ widthText width ++ (conversion t).toString

/-- Double the percent signs. -/
def doublePercent (s : String) : String :=
  String.ofList (s.toList.flatMap fun c => if c = '%' then ['%', '%'] else [c])

/-- The values that are written. -/
def writtenValues (args : List WriteArg) : List Expr := args.filterMap WriteArg.expr?

/-- The text for one argument; `formatted` when it is read as a format. -/
def formatPiece (formatted : Bool) : WriteArg → String
  | .literal s => if formatted then doublePercent s else s
  | .value e width => directive e.ty width

/-- The text that is printed, or the format when there are values. -/
def formatText (line : Bool) (args : List WriteArg) : String :=
  let formatted := !(writtenValues args).isEmpty
  String.join (args.map (formatPiece formatted)) ++ (if line then "\n" else "")

/-- Make an object of a value on the stack. Only scalars that are no objects are wrapped. -/
def wrap (t : Ty) : List Instr :=
  match Wrapper.ofKind? (.ofTy t) with
  | some w => [.invoke (.wrap w)]
  | none => []

/-- Put the values into the array on the stack, from index `n` on. -/
def fillObjects (n : Nat) : List Expr → Gen (List Instr)
  | [] => return []
  | e :: rest => do
      let code ← expr e
      let more ← fillObjects (n + 1) rest
      return [.dup, .pushInt (Int32.ofNat n)] ++ code ++ wrap e.ty ++ [.arrayStore .ref] ++ more

def write (line : Bool) (args : List WriteArg) : Gen (List Instr) := do
  if args.isEmpty then
    return if line then [.invoke .standardOutput, .invoke .printLine] else []
  let start : List Instr := [.invoke .standardOutput, .pushText (formatText line args)]
  match writtenValues args with
  | [] => return start ++ [.invoke .printPlain]
  | values => do
      let code ← fillObjects 0 values
      return start ++ [.pushInt (Int32.ofNat values.length), .newObjectArray] ++ code ++
        [.invoke .printFormatted, .pop]

end PascalJvm.Emit
