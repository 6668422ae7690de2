import PascalJvm.Emit.Supply
import PascalJvm.Typed.Tree

/-!
# Code for expressions

The code of an expression leaves its value on the stack. Operands are evaluated from left
to right, and both operands of `and` and `or` always are. A place is reached through its
path: the object that holds it, and for an array element the index. The code of a call
passes a scalar variable by reference in a cell, and after the call stores the content of
each cell back, in the order of the parameters.
-/
namespace PascalJvm.Emit

open Jvm Typed

/-- The kind of arithmetic on values of a type. -/
def arithKind (t : Ty) : Kind := if t.is .real then .float else .int

/-- Widen an integer where a real is wanted. -/
def widen (target value : Ty) : List Instr :=
  if target.is .real && value.is .integer then [.intToFloat] else []

/-- Widen an operand for arithmetic of a kind. -/
def widenTo (kind : Kind) (value : Ty) : List Instr :=
  if kind = .float && value.is .integer then [.intToFloat] else []

def relation? : BinOp → Option Relation
  | .eq => some .eq
  | .ne => some .ne
  | .lt => some .lt
  | .le => some .le
  | .gt => some .gt
  | .ge => some .ge
  | _ => none

/-- The instruction for an operator that is no comparison. -/
def arithOp : BinOp → ArithOp
  | .add => .add
  | .sub => .sub
  | .mul => .mul
  | .div | .intDiv => .div
  | .mod => .rem
  | .and => .and
  | _ => .or

/-- The kind of arithmetic an operator does for a result of type `t`. -/
def operatorKind (t : Ty) : BinOp → Kind
  | .div => .float
  | .intDiv | .mod | .and | .or => .int
  | _ => arithKind t

/-- Compare two values of these types on the stack and jump to `yes` if they are related. -/
def compare (r : Relation) (a b : Ty) (yes : Label) : List Instr :=
  if a.is .real || b.is .real then [.compareFloats, .ifZero r yes]
  else if a.is .string then [.invoke .compareStrings, .ifZero r yes]
  else [.ifCompare r yes]

/-- The kind that the operands of a comparison are widened to. -/
def compareKind (a b : Ty) : Kind := if a.is .real || b.is .real then .float else .int

/-- A comparison, as 1 or 0. -/
def relation (r : Relation) (tyA tyB : Ty) (a b : Gen (List Instr)) : Gen (List Instr) := do
  let yes ← freshLabel
  let done ← freshLabel
  let kind := compareKind tyA tyB
  let codeA ← a
  let codeB ← b
  return codeA ++ widenTo kind tyA ++ codeB ++ widenTo kind tyB ++ compare r tyA tyB yes ++
    [.pushInt 0, .goto done, .label yes, .pushInt 1, .label done]

def arithmetic (op : BinOp) (ty tyA tyB : Ty) (a b : Gen (List Instr)) : Gen (List Instr) := do
  let kind := operatorKind ty op
  let codeA ← a
  let codeB ← b
  return codeA ++ widenTo kind tyA ++ codeB ++ widenTo kind tyB ++ [.arith (arithOp op) kind]

/-- The value of a whole variable. -/
def loadSymbol (s : Symbol) (ty : Ty) : List Instr :=
  match s.storage with
  | .static name => [.getStatic (.global name ty)]
  | .slot n => [.load (.ofTy ty) n]
  | .cell n => [.load .ref n, .pushInt 0, .arrayLoad (.ofTy ty)]

/-- The value of a place; the code that walks to a part of a variable is `walk`. -/
def loadVia (walk : Gen (List Instr)) (ty : Ty) : Place → Gen (List Instr)
  | .root s => return loadSymbol s ty
  | _ => walk

/-- The object that a variable with parts refers to. A cell holds no such object. -/
def loadObject (s : Symbol) : Gen (List Instr) :=
  match s.storage with
  | .static name => return [.getStatic (.global name s.ty)]
  | .slot n => return [.load .ref n]
  | .cell _ => throw (.selectorOnCell s.name)

/-- Array elements are numbered from zero, so the first index is subtracted. -/
def rebase (low : Int32) : List Instr :=
  if low = 0 then [] else [.pushInt low, .arith .sub .int]

/-- What the store into a whole variable needs below the value. -/
def symbolAddress (s : Symbol) : List Instr :=
  match s.storage with
  | .cell n => [.load .ref n, .pushInt 0]
  | _ => []

/-- Store the value on the stack into a place. -/
def store (ty : Ty) : Place → List Instr
  | .root s =>
      match s.storage with
      | .static name => [.putStatic (.global name ty)]
      | .slot n => [.store (.ofTy ty) n]
      | .cell _ => [.arrayStore (.ofTy ty)]
  | .field _ record name fieldTy => [.putField (.member record name fieldTy)]
  | .element _ _ _ elem => [.arrayStore (.ofTy elem)]

/-- The cell that a variable already is in. -/
def ownCell? : Place → Option Nat
  | .root ⟨_, .cell n, _⟩ => some n
  | _ => none

/-- Make a cell in a fresh slot with the value that `load` gives, and push it. -/
def intoCell (ty : Ty) (load : Gen (List Instr)) : Gen (List Instr × Nat) := do
  let cell ← freshSlot
  let code ← load
  return ([.pushInt 1, .newArray ty, .store .ref cell, .load .ref cell, .pushInt 0] ++ code ++
    [.arrayStore (.ofTy ty), .load .ref cell], cell)

/-- Store the content of a cell back; `address` leads to the place. -/
def outOfCell (cell : Nat) (ty : Ty) (place : Place) (address : List Instr) : List Instr :=
  address ++ [.load .ref cell, .pushInt 0, .arrayLoad (.ofTy ty)] ++ store ty place

/-- Pass a variable by reference: an object as it is, a cell as it is, and any other scalar
in a new cell, whose slot is returned. -/
def passRef (paramTy : Ty) (place : Place) (load : Gen (List Instr)) :
    Gen (List Instr × Option Nat) :=
  if paramTy.isAggregate then return (← load, none)
  else
    match ownCell? place with
    | some n => return ([.load .ref n], none)
    | none => do
        let (code, cell) ← intoCell paramTy load
        return (code, some cell)

/-- A call: arguments, the call itself, and what is stored back. The slots of the cells are
free again afterwards. -/
def invocation (callee : Signature) (count : Nat)
    (push : Gen (List Instr × List (Option Nat)))
    (copyBack : List (Option Nat) → Gen (List Instr)) : Gen (List Instr) := do
  if count ≠ callee.params.length then
    throw (.argumentCount callee.method count callee.params.length)
  releasing do
    let (args, cells) ← push
    let back ← copyBack cells
    return args ++ [.invokeStatic (.ofSignature callee)] ++ back

mutual

/-- The value of an expression. -/
def expr : Expr → Gen (List Instr)
  | .int _ i => return [.pushInt i]
  | .real _ x => return [.pushReal x]
  | .text _ s => return [.pushText s]
  | .read _ place placeTy => loadVia (path place) placeTy place
  | .call _ callee args =>
      invocation callee args.length (pushArgs callee.params args) fun cells => copyBack cells args
  | .unary _ .neg x => do return (← expr x) ++ [.arith .neg (arithKind x.ty)]
  | .unary _ .not x => do return (← expr x) ++ [.pushInt 1, .arith .xor .int]
  | .binary ty op a b =>
      match relation? op with
      | some r => relation r a.ty b.ty (expr a) (expr b)
      | none => arithmetic op ty a.ty b.ty (expr a) (expr b)

/-- The value of a part of a variable, or the object that the variable refers to. -/
def path : Place → Gen (List Instr)
  | .root s => loadObject s
  | .field base record name ty => do return (← path base) ++ [.getField (.member record name ty)]
  | .element base index low elem => do
      let codeBase ← path base
      let codeIndex ← expr index
      return codeBase ++ codeIndex ++ rebase low ++ [.arrayLoad (.ofTy elem)]

/-- What the store into a place needs below the value. -/
def address : Place → Gen (List Instr)
  | .root s => return symbolAddress s
  | .field base _ _ _ => path base
  | .element base index low _ => do
      let codeBase ← path base
      let codeIndex ← expr index
      return codeBase ++ codeIndex ++ rebase low

/-- Push the arguments of a call, in order. The result has a slot for each argument that is
in a new cell. -/
def pushArgs : List Passing → List Arg → Gen (List Instr × List (Option Nat))
  | p :: params, .value e :: args => do
      let code ← expr e
      let (rest, cells) ← pushArgs params args
      return (code ++ widen p.ty e.ty ++ rest, none :: cells)
  | p :: params, .ref place placeTy :: args => do
      let (code, cell) ← passRef p.ty place (loadVia (path place) placeTy place)
      let (rest, cells) ← pushArgs params args
      return (code ++ rest, cell :: cells)
  | _, _ => return ([], [])

/-- Store the cells back into the variables that were passed. -/
def copyBack : List (Option Nat) → List Arg → Gen (List Instr)
  | some cell :: cells, .ref place placeTy :: args => do
      let codeAddress ← address place
      let rest ← copyBack cells args
      return outOfCell cell placeTy place codeAddress ++ rest
  | _ :: cells, _ :: args => copyBack cells args
  | _, _ => return []

end

/-- The value of a place. -/
def load (d : Designator) : Gen (List Instr) := loadVia (path d.place) d.ty d.place

/-- A call of a routine. -/
def call (callee : Signature) (args : List Arg) : Gen (List Instr) :=
  invocation callee args.length (pushArgs callee.params args) fun cells => copyBack cells args

/-- Store a value into a place, widened if the place holds a real. -/
def assign (target : Designator) (value : Expr) : Gen (List Instr) := do
  let codeAddress ← address target.place
  let codeValue ← expr value
  return codeAddress ++ codeValue ++ widen target.ty value.ty ++ store target.ty target.place

end PascalJvm.Emit
