import PascalJvm.Check.Expression

/-!
# Checking statements

Parts are checked in the order in which they are written, except that the else part of an
`if` comes before its then part.
-/
namespace PascalJvm.Check

open Typed

/-- An aggregate is never assigned as a whole. -/
def assignTarget (base : String) (d : Designator) : Except CheckError Unit :=
  require (!d.ty.isAggregate) (.assignAggregate base d.ty)

def checkAssign (s : Scope) (target : Source.Access) (value : Source.Expr) : Checking Stmt := do
  let d ← access s target
  lift (assignTarget target.base d)
  let e ← expr s (some d.ty) value
  lift (require (d.ty.accepts e.ty) (.assignMismatch target.base d.ty e.ty))
  return .assign d e

/-- An expression that has to be boolean. -/
def condition (s : Scope) (spot : TypedSpot) (e : Source.Expr) : Checking Expr := do
  let c ← expr s none e
  lift (require (c.ty.is .boolean) (.typeError spot))
  return c

/-- A bound of a for statement has the type of its counter. -/
def bound (s : Scope) (spot : TypedSpot) (ty : Ty) (e : Source.Expr) : Checking Expr := do
  let x ← expr s (some ty) e
  lift (require (ty.same x.ty) (.typeError spot))
  return x

def counterNamed (s : Scope) (name : String) : Except CheckError Designator := do
  let d ← s.variableNamed name
  require d.ty.isOrdinal (.typeError .forVariable)
  return d

/-- A constant of a case branch, as its ordinal number. -/
def caseConstant (s : Scope) (selector : Ty) (e : Source.ConstExpr) :
    Except CheckError Int32 := do
  let c ← Constant.eval s.env.consts e
  require (selector.same c.ty) .caseConstantType
  Constant.orError .caseConstantOrdinal c.ordinal?

def checkWidth (ty : Ty) : Option FieldWidth → Except CheckError Unit
  | none => .ok ()
  | some w => do
      require (w.width ≠ 0) .widthZero
      require (w.decimals.isNone || ty.is .real) .decimalsNotReal

/-- A value that is written, with its width. -/
def checkWritten (width : Option FieldWidth) (e : Expr) : Except CheckError WriteArg := do
  require (!e.ty.isAggregate) .writeAggregate
  checkWidth e.ty width
  return .value e width

/-- A text literal without a width is written as it is. -/
def writeArg (s : Scope) (a : Source.WriteArg) : Checking WriteArg :=
  match a.expr, a.width with
  | .text t, none => return .literal t
  | e, width => do lift (checkWritten width (← expr s none e))

def readTarget (s : Scope) (a : Source.Access) : Checking Designator := do
  let d ← access s a
  lift (require d.ty.isBasic (.readUnsupported a.base d.ty))
  return d

/-- A call as a statement. The value of a function is not used. -/
def checkCall (s : Scope) (name : String) (args : List Source.Expr) : Checking Stmt := do
  let sig ← lift (s.signature name)
  lift (checkCount name sig args.length)
  let as ← arguments s name 1 sig.params args
  return if sig.result.isSome then .functionCall sig as else .procedureCall sig as

mutual

def stmt (s : Scope) : Source.Stmt → Checking Stmt
  | .compound body => do return .compound (← stmts s body)
  | .assign target value => checkAssign s target value
  | .call routine args => checkCall s routine args
  | .ifThen cond yes no => do
      let c ← condition s .ifCondition cond
      let checkedNo ← optional s no
      return .ifThen c (← stmt s yes) checkedNo
  | .caseOf selector branches otherwise => do
      let e ← expr s none selector
      lift (require e.ty.isOrdinal .caseSelector)
      let checked ← arms s e.ty branches
      return .caseOf e checked (← optional s otherwise)
  | .whileDo cond body => do
      let c ← condition s .whileCondition cond
      return .whileDo c (← stmt s body)
  | .repeatUntil body cond => do
      let checked ← stmts s body
      return .repeatUntil checked (← condition s .repeatCondition cond)
  | .forDo counter first last down body => do
      let d ← lift (counterNamed s counter)
      let a ← bound s .forInit d.ty first
      let b ← bound s .forLimit d.ty last
      return .forDo d a b down (← stmt s body)
  | .read line targets => do return .read line (← targets.mapM (readTarget s))
  | .write line args => do return .write line (← args.mapM (writeArg s))

def stmts (s : Scope) : List Source.Stmt → Checking (List Stmt)
  | [] => return []
  | x :: rest => do
      let checked ← stmt s x
      return checked :: (← stmts s rest)

def optional (s : Scope) : Option Source.Stmt → Checking (Option Stmt)
  | none => return none
  | some x => do return some (← stmt s x)

/-- The branches of a case statement whose selector has this type. -/
def arms (s : Scope) (selector : Ty) :
    List (List Source.ConstExpr × Source.Stmt) → Checking (List (List Int32 × Stmt))
  | [] => return []
  | (values, x) :: rest => do
      let constants ← lift (values.mapM (caseConstant s selector))
      let checked ← stmt s x
      return (constants, checked) :: (← arms s selector rest)

end
end PascalJvm.Check
