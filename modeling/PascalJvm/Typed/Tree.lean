import PascalJvm.Signature
import PascalJvm.Source.Tree

/-!
# Typed trees

A checked program: every expression carries its type, and every variable is the place where
its value is kept.
-/
namespace PascalJvm.Typed

/-- Where a variable is kept. -/
inductive Storage
  /-- a static field of the program class -/
  | static (name : String)
  | slot (n : Nat)
  /-- a slot with a cell: an array whose one element is the variable -/
  | cell (slot : Nat)
deriving DecidableEq, Repr

structure Symbol where
  name : String
  storage : Storage
  ty : Ty
deriving Repr

mutual

inductive Expr
  /-- an integer, or the ordinal number of another value -/
  | int (ty : Ty) (value : Int32)
  | real (ty : Ty) (value : Single)
  | text (ty : Ty) (value : String)
  /-- the value of a place that holds `placeTy` -/
  | read (ty : Ty) (place : Place) (placeTy : Ty)
  | call (ty : Ty) (callee : Signature) (args : List Arg)
  | unary (ty : Ty) (op : UnOp) (x : Expr)
  | binary (ty : Ty) (op : BinOp) (a b : Expr)

/-- A variable, or a part of one. -/
inductive Place
  | root (symbol : Symbol)
  | field (base : Place) (record name : String) (ty : Ty)
  | element (base : Place) (index : Expr) (low : Int32) (elem : Ty)

inductive Arg
  | value (e : Expr)
  | ref (place : Place) (ty : Ty)

end

deriving instance Repr for Expr, Place, Arg

namespace Expr

def ty : Expr → Ty
  | int t _ | real t _ | text t _ | read t _ _ | call t _ _ | unary t _ _ | binary t _ _ _ => t

/-- The same value taken as a value of type `t`. -/
def retype (t : Ty) : Expr → Expr
  | int _ i => int t i
  | real _ x => real t x
  | text _ s => text t s
  | read _ p placeTy => read t p placeTy
  | call _ callee args => call t callee args
  | unary _ op x => unary t op x
  | binary _ op a b => binary t op a b

end Expr

/-- A place with the type of its content. -/
structure Designator where
  place : Place
  ty : Ty
deriving Repr

namespace Designator

def ofSymbol (s : Symbol) : Designator := ⟨.root s, s.ty⟩

def toExpr (d : Designator) : Expr := .read d.ty d.place d.ty

end Designator

inductive WriteArg
  | literal (s : String)
  | value (e : Expr) (width : Option FieldWidth)
deriving Repr

/-- The expression that is written, if there is one. -/
def WriteArg.expr? : WriteArg → Option Expr
  | literal _ => none
  | value e _ => some e

inductive Stmt
  | empty
  | compound (body : List Stmt)
  | assign (target : Designator) (value : Expr)
  | ifThen (cond : Expr) (yes : Stmt) (no : Option Stmt)
  | caseOf (selector : Expr) (branches : List (List Int32 × Stmt)) (otherwise : Option Stmt)
  | repeatUntil (body : List Stmt) (cond : Expr)
  | whileDo (cond : Expr) (body : Stmt)
  | forDo (counter : Designator) (first last : Expr) (down : Bool) (body : Stmt)
  | procedureCall (callee : Signature) (args : List Arg)
  /-- a call of a function for its effect -/
  | functionCall (callee : Signature) (args : List Arg)
  | write (line : Bool) (args : List WriteArg)
  | read (line : Bool) (targets : List Designator)
deriving Repr

/-- How reports name a statement. -/
def Stmt.kind : Stmt → String
  | empty => "empty"
  | compound _ => "compound"
  | assign .. => "assignment"
  | ifThen .. => "if"
  | caseOf .. => "case"
  | repeatUntil .. => "repeat"
  | whileDo .. => "while"
  | forDo .. => "for"
  | procedureCall .. => "procedure call"
  | functionCall .. => "function call"
  | write line _ => if line then "writeln" else "write"
  | read line _ => if line then "readln" else "read"

/-- A parameter or variable of a routine. -/
structure Local where
  name : String
  slot : Nat
  ty : Ty
deriving Repr

structure Routine where
  signature : Signature
  /-- parameters take the slots from 0 -/
  params : List Local
  locals : List Local
  /-- the variable that holds the result of a function -/
  result : Option Local
  nextSlot : Nat
  body : Stmt
deriving Repr

structure RecordTy where
  name : String
  fields : List (String × Ty)
deriving Repr

structure Program where
  name : String
  globals : List (String × Ty)
  records : List RecordTy
  routines : List Routine
  body : Stmt
deriving Repr

end PascalJvm.Typed
