import PascalJvm.Real.Single
import PascalJvm.Ty

/-!
# Source trees

A program as it is written: names are not resolved and expressions have no types.
-/
namespace PascalJvm

inductive UnOp
  | neg
  | not
deriving DecidableEq, Repr

inductive BinOp
  | add
  | sub
  | mul
  | div
  | intDiv
  | mod
  | and
  | or
  | eq
  | ne
  | lt
  | le
  | gt
  | ge
deriving DecidableEq, Repr

/-- The six comparisons. -/
def BinOp.isRelational : BinOp → Bool
  | .eq | .ne | .lt | .le | .gt | .ge => true
  | _ => false

/-- The width of a written value, and for a real the number of decimals. -/
structure FieldWidth where
  left : Bool
  width : Nat
  decimals : Option Nat
deriving DecidableEq, Repr

namespace Source

inductive Expr
  | int (value : Int32)
  | real (value : Single)
  | bool (value : Bool)
  | char (code : Nat)
  | text (value : String)
  | name (n : String)
  | call (f : String) (args : List Expr)
  | field (record : Expr) (name : String)
  | index (array position : Expr)
  | unary (op : UnOp) (x : Expr)
  | binary (op : BinOp) (a b : Expr)
deriving Repr, Inhabited

/-- Expressions of constants: no selectors, and names stand for constants. -/
inductive ConstExpr
  | int (value : Int32)
  | real (value : Single)
  | bool (value : Bool)
  | char (code : Nat)
  | text (value : String)
  | name (n : String)
  | call (f : String) (args : List ConstExpr)
  | unary (op : UnOp) (x : ConstExpr)
  | binary (op : BinOp) (a b : ConstExpr)
deriving Repr, Inhabited

inductive Selector
  | field (name : String)
  | index (positions : List Expr)
deriving Repr

/-- A variable with the selectors written after it. -/
structure Access where
  base : String
  selectors : List Selector
deriving Repr

/-- A selector applied to an expression; each position of an index selects in turn. -/
def Selector.apply (e : Expr) : Selector → Expr
  | .field f => .field e f
  | .index positions => positions.foldl .index e

/-- The access as an expression, for its value. -/
def Access.toExpr (a : Access) : Expr := a.selectors.foldl Selector.apply (.name a.base)

structure WriteArg where
  expr : Expr
  width : Option FieldWidth
deriving Repr

inductive Stmt
  | compound (body : List Stmt)
  | assign (target : Access) (value : Expr)
  | call (routine : String) (args : List Expr)
  | ifThen (cond : Expr) (yes : Stmt) (no : Option Stmt)
  | caseOf (selector : Expr) (arms : List (List ConstExpr × Stmt)) (otherwise : Option Stmt)
  | whileDo (cond : Expr) (body : Stmt)
  | repeatUntil (body : List Stmt) (cond : Expr)
  | forDo (counter : String) (first last : Expr) (down : Bool) (body : Stmt)
  | read (line : Bool) (targets : List Access)
  | write (line : Bool) (args : List WriteArg)
deriving Repr

inductive TypeRef
  | basic (b : Basic)
  | named (name : String)
deriving DecidableEq, Repr

/-- The indices of one dimension: `low..high`, or `0..high-1` when only `high` is written. -/
structure IndexRange where
  low : Option ConstExpr
  high : ConstExpr
deriving Repr

inductive TypeSpec
  | basic (b : Basic)
  | enum (values : List String)
  | record (fields : List (String × TypeRef))
  | array (ranges : List IndexRange) (elem : TypeRef)
  | alias (name : String)
deriving Repr

structure Param where
  name : String
  ty : TypeRef
  byRef : Bool
deriving Repr

/-- The heading of a routine; a function has a result. -/
structure Heading where
  name : String
  params : List Param
  result : Option TypeRef
deriving Repr

/-- Declarations, by kind and each kind in order, and the statements they serve. -/
structure Block where
  consts : List (String × ConstExpr)
  types : List (String × TypeSpec)
  vars : List (String × TypeRef)
  routines : List (Heading × Block)
  body : Stmt
deriving Repr

structure Program where
  name : String
  block : Block
deriving Repr

end Source
end PascalJvm
