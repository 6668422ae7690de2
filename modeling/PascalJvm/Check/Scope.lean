import PascalJvm.Check.Environment
import PascalJvm.Typed.Tree

/-!
# Scopes

What a body can see: the program's variables, the parameters, variables and result of its own
routine, and the routines declared in the blocks around it. A routine does not see the
variables of an enclosing routine.
-/
namespace PascalJvm.Check

open Typed

structure Scope where
  env : Environment
  path : ScopePath
  locals : List (String × Symbol)
  /-- visible routines, innermost first -/
  routines : List (String × ScopePath)
deriving Repr

/-- The routines declared in a block come before those that are visible around it. -/
def visibleIn (path : ScopePath) (outer : List (String × ScopePath))
    (routines : List (Source.Heading × Source.Block)) : List (String × ScopePath) :=
  routines.map (fun (h, _) => (h.name, path ++ [h.name])) ++ outer

namespace Scope

/-- The variable of this name. -/
def symbol? (s : Scope) (name : String) : Option Symbol :=
  match s.locals.lookup name with
  | some v => some v
  | none => (s.env.vars.lookup name).map fun ty => ⟨name, .static name, ty⟩

def isRoutine (s : Scope) (name : String) : Bool := (s.routines.lookup name).isSome

/-- The signature of the visible routine of this name. -/
def signature (s : Scope) (name : String) : Except CheckError Signature :=
  match s.routines.lookup name with
  | none => .error (.unknown .routine name)
  | some path =>
      match s.env.routines.lookup path with
      | none => .error (.missingSignature path.text)
      | some sig => .ok sig

/-- The whole variable of this name. -/
def variableNamed (s : Scope) (name : String) : Except CheckError Designator :=
  match s.symbol? name with
  | some v => .ok (.ofSymbol v)
  | none => .error (.unknown .var name)

end Scope

/-- Fail unless the condition holds. -/
def require (condition : Bool) (e : CheckError) : Except CheckError Unit :=
  if condition then .ok () else .error e

/-- A field of a record. -/
def selectField (d : Designator) (name : String) : Except CheckError Designator :=
  match d.ty with
  | .record record fields =>
      match fields.lookup name with
      | some ty => .ok ⟨.field d.place record name ty, ty⟩
      | none => .error (.unknown .field name)
  | _ => .error .fieldOfNonRecord

/-- The first index and the element type of an array. -/
def arrayParts (d : Designator) : Except CheckError (Int32 × Ty) :=
  match d.ty with
  | .array low _ elem => .ok (low, elem)
  | _ => .error .indexOfNonArray

/-- An element of an array. -/
def selectElement (d : Designator) (low : Int32) (elem : Ty) (index : Expr) :
    Except CheckError Designator :=
  if index.ty.isOrdinal then .ok ⟨.element d.place index low elem, elem⟩
  else .error (.typeError .arrayIndex)

/-- The value of a constant as an expression. -/
def constantExpr : Constant → Expr
  | .real x => .real .real x
  | .text s => .text .string s
  | c => .int c.ty (c.ordinal?.getD 0)

end PascalJvm.Check
