import PascalJvm.Check.Scope
import PascalJvm.Log

/-!
# Checking expressions

An expression is given a type and its names are resolved: to a variable first, then to a
constant, then to a call of a function without arguments. A literal with one character is a
character, unless a string is expected at its place.
-/
namespace PascalJvm.Check

open Typed

/-- Checking, with reports. -/
abbrev Checking := Traced CheckError

/-- A check without reports. -/
def lift {α : Type} (x : Except CheckError α) : Checking α := Traced.ofExcept x

/-- A text literal. -/
def literal (expected : Option Ty) (s : String) : Expr :=
  match s.toList, expected with
  | [_], some (.basic .string) => .text .string s
  | [c], _ => .int .char (Int32.ofNat c.toNat)
  | _, _ => .text .string s

/-- Whether the expression is a variable with selectors. -/
def isAccess : Source.Expr → Bool
  | .name _ => true
  | .field e _ => isAccess e
  | .index e _ => isAccess e
  | _ => false

def isText : Source.Expr → Bool
  | .text _ => true
  | _ => false

/-- The type of arithmetic on two numbers. -/
def wider (a b : Ty) : Ty := if a.is .real || b.is .real then .real else .integer

/-- Types whose values can be compared. -/
def comparable (a b : Ty) : Bool :=
  (a.isNumeric && b.isNumeric) || (a.same b && (a.isOrdinal || a.is .string))

/-- The type of a binary operation on values of these types. -/
def binaryTy (op : BinOp) (a b : Ty) : Except CheckError Ty :=
  match op with
  | .add | .sub | .mul => do
      require (a.isNumeric && b.isNumeric) (.typeError .arithmetic)
      return wider a b
  | .div => do
      require (a.isNumeric && b.isNumeric) (.typeError .division)
      return .real
  | .intDiv | .mod => do
      require (a.is .integer) (.typeError .intDivLeft)
      require (b.is .integer) (.typeError .intDivRight)
      return .integer
  | .and | .or => do
      require (a.is .boolean) (.typeError .booleanLeft)
      require (b.is .boolean) (.typeError .booleanRight)
      return .boolean
  | .eq | .ne | .lt | .le | .gt | .ge => do
      require (comparable a b) (.comparison a b)
      return .boolean

def checkBinary (op : BinOp) (a b : Expr) : Except CheckError Expr := do
  return .binary (← binaryTy op a.ty b.ty) op a b

def checkUnary (op : UnOp) (x : Expr) : Except CheckError Expr := do
  match op with
  | .neg => require x.ty.isNumeric (.typeError .negation)
  | .not => require (x.ty.is .boolean) (.typeError .complement)
  return .unary x.ty op x

/-- The built-in function of this name, unless a routine of the same name is visible. -/
def builtin? (s : Scope) (name : String) : Option Constant.Builtin :=
  if s.isRoutine name then none else Constant.Builtin.ofName? name

/-- Built-in functions only change the type of their argument. -/
def applyBuiltin (f : Constant.Builtin) (x : Expr) : Except CheckError Expr :=
  match f with
  | .ord => do
      require x.ty.isOrdinal .ordArgument
      return x.retype .integer
  | .chr => do
      require (x.ty.is .integer) (.typeError .chrArgument)
      return x.retype .char

def checkCount (name : String) (sig : Signature) (count : Nat) : Except CheckError Unit :=
  require (sig.params.length = count) (.argumentCount name sig.params.length count)

/-- A call of a function, for its value. -/
def functionCall (s : Scope) (name : String) (count : Nat)
    (arguments : List Passing → Checking (List Arg)) : Checking Expr := do
  let sig ← lift (s.signature name)
  match sig.result with
  | none => Traced.fail (.procedureAsValue name)
  | some ty =>
      lift (checkCount name sig count)
      return .call ty sig (← arguments sig.params)

/-- A name in an expression. -/
def checkName (s : Scope) (name : String) : Checking Expr :=
  match s.symbol? name, s.env.consts.lookup name with
  | some v, _ => return (Designator.ofSymbol v).toExpr
  | none, some c => return constantExpr c
  | none, none =>
      if s.isRoutine name then functionCall s name 0 fun _ => return []
      else Traced.fail (.unknown .identifier name)

mutual

/-- Check an expression, where a value of type `expected` would be welcome. -/
def expr (s : Scope) : Option Ty → Source.Expr → Checking Expr
  | _, .int i => return .int .integer i
  | _, .real x => return .real .real x
  | _, .bool b => return .int .boolean (if b then 1 else 0)
  | _, .char c => return .int .char (Int32.ofNat c)
  | expected, .text t => return literal expected t
  | _, .name n => checkName s n
  | _, .call f args =>
      match builtin? s f with
      | some b =>
          match args with
          | [x] => do lift (applyBuiltin b (← expr s none x))
          | _ => Traced.fail (.builtinArity f)
      | none => functionCall s f args.length fun params => arguments s f 1 params args
  | _, .field e f =>
      if isAccess e then do
        let d ← place s e
        return (← lift (selectField d f)).toExpr
      else Traced.fail .selectorOnValue
  | _, .index e i =>
      if isAccess e then do
        let d ← place s e
        let (low, elem) ← lift (arrayParts d)
        let index ← expr s none i
        return (← lift (selectElement d low elem index)).toExpr
      else Traced.fail .selectorOnValue
  | _, .unary op x => do lift (checkUnary op (← expr s none x))
  | _, .binary op a b =>
      if op.isRelational && isText a then do
        let right ← expr s none b
        let left ← expr s (some right.ty) a
        lift (checkBinary op left right)
      else do
        let left ← expr s none a
        let right ← expr s (some left.ty) b
        lift (checkBinary op left right)

/-- Check an expression that is to name a place. Two passes are one here: the selectors are not
first collected from the expression into a variable with selectors, which would then be checked
as `access` does, but each one is checked on the way back from the variable. That there is a
variable at all is asked before, with `isAccess`. -/
def place (s : Scope) : Source.Expr → Checking Designator
  | .name n => lift (s.variableNamed n)
  | .field e f => do lift (selectField (← place s e) f)
  | .index e i => do
      let d ← place s e
      let (low, elem) ← lift (arrayParts d)
      let index ← expr s none i
      lift (selectElement d low elem index)
  | _ => Traced.fail .selectorOnValue

/-- Check the arguments of a call, from the one with this number on. -/
def arguments (s : Scope) (routine : String) (number : Nat) :
    List Passing → List Source.Expr → Checking (List Arg)
  | p :: params, a :: args => do
      let arg ←
        if p.byRef then
          if isAccess a then do
            let d ← place s a
            lift (require (p.ty.same d.ty) (.argumentMismatch number routine p.ty d.ty))
            Traced.report (.argument s.path.text number d.ty)
            pure (Arg.ref d.place d.ty)
          else Traced.fail (.argumentNotVariable number routine)
        else do
          let e ← expr s (some p.ty) a
          lift (require (p.ty.accepts e.ty) (.argumentMismatch number routine p.ty e.ty))
          Traced.report (.argument s.path.text number e.ty)
          pure (Arg.value e)
      let rest ← arguments s routine (number + 1) params args
      return arg :: rest
  | _, _ => return []

end

/-- Check the positions of one index selector, each in the array that the last one gave. -/
def positions (s : Scope) (d : Designator) : List Source.Expr → Checking Designator
  | [] => return d
  | i :: rest => do
      let (low, elem) ← lift (arrayParts d)
      let index ← expr s none i
      positions s (← lift (selectElement d low elem index)) rest

/-- Check the selectors after a variable, one after the other. -/
def selectors (s : Scope) (d : Designator) : List Source.Selector → Checking Designator
  | [] => return d
  | .field f :: rest => do selectors s (← lift (selectField d f)) rest
  | .index is :: rest => do selectors s (← positions s d is) rest

/-- Check a variable with its selectors. -/
def access (s : Scope) (a : Source.Access) : Checking Designator := do
  selectors s (← lift (s.variableNamed a.base)) a.selectors

end PascalJvm.Check
