import PascalJvm.Check.Constant
import PascalJvm.Signature

/-!
# Environments

The declared constants, types, program variables and routine headings of a program. There is
one table of each for the whole program: the declarations of nested blocks join those of the
blocks around them, after the headings of the enclosing block.
-/
namespace PascalJvm

/-- The names of the enclosing routines, outermost first; empty for the program itself. -/
abbrev ScopePath := List String

/-- How messages name a scope. -/
def ScopePath.text (path : ScopePath) : String :=
  path.foldl (fun s n => s ++ "::" ++ n) "program"

/-- The method of the routine with this path. -/
def ScopePath.method (path : ScopePath) : String := String.intercalate "$" path

structure Environment where
  consts : List (String × Constant)
  types : List (String × Ty)
  /-- the program's own variables, in order -/
  vars : List (String × Ty)
  routines : List (ScopePath × Signature)
deriving Repr

namespace Environment

open Constant (orError)

def empty : Environment := ⟨[], [], [], []⟩

/-- The type that a reference means. -/
def typeOf (env : Environment) : Source.TypeRef → Except CheckError Ty
  | .basic b => .ok (.basic b)
  | .named n => orError (.unknown .type n) (env.types.lookup n)

def isConst (env : Environment) (name : String) : Bool := (env.consts.lookup name).isSome

def addConst (env : Environment) (name : String) (value : Constant) : Environment :=
  { env with consts := env.consts ++ [(name, value)] }

def addType (env : Environment) (name : String) (ty : Ty) : Environment :=
  { env with types := env.types ++ [(name, ty)] }

def declareConst (path : ScopePath) (env : Environment) (decl : String × Source.ConstExpr) :
    Except CheckError Environment := do
  if env.isConst decl.1 then throw (.redefined .const path.text decl.1)
  return env.addConst decl.1 (← Constant.eval env.consts decl.2)

/-- The values of an enumeration, numbered from `n`. -/
def declareValues (path : ScopePath) (ty : String) (env : Environment) :
    Nat → List String → Except CheckError Environment
  | _, [] => .ok env
  | n, v :: vs =>
      if env.isConst v then .error (.redefined .const path.text v)
      else declareValues path ty (env.addConst v (.enum (Int32.ofNat n) ty)) (n + 1) vs

/-- The first index and the length of one dimension. -/
def dimension (path : ScopePath) (env : Environment) (r : Source.IndexRange) :
    Except CheckError (Int32 × Nat) := do
  let bound (e : Source.ConstExpr) : Except CheckError Int32 := do
    orError (.boundNotOrdinal path.text) (← Constant.eval env.consts e).ordinal?
  let high ← bound r.high
  let (low, len) ← match r.low with
    | none => pure ((0 : Int32), high)
    | some e => do
        let low ← bound e
        let len := (Constant.fit? (high.toInt - low.toInt)).bind fun d => Constant.fit? (d.toInt + 1)
        pure (low, ← orError (.lengthTooLarge path.text) len)
  if len.toInt ≤ 0 then throw (.lengthNotPositive path.text)
  return (low, len.toInt.toNat)

/-- The dimensions of an array, the first one outermost. -/
def arrayOf (dims : List (Int32 × Nat)) (elem : Ty) : Ty :=
  dims.foldr (fun (low, len) t => .array low len t) elem

/-- The fields of a record, each name once. -/
def fieldsOf (path : ScopePath) (env : Environment) (done : List (String × Ty)) :
    List (String × Source.TypeRef) → Except CheckError (List (String × Ty))
  | [] => .ok done
  | (name, ref) :: rest => do
      let ty ← env.typeOf ref
      if (done.lookup name).isSome then throw (.duplicateField path.text name)
      fieldsOf path env (done ++ [(name, ty)]) rest

/-- The type that a declaration gives, and the environment with the constants it brings. -/
def specify (path : ScopePath) (env : Environment) (name : String) :
    Source.TypeSpec → Except CheckError (Environment × Ty)
  | .basic b => .ok (env, .basic b)
  | .alias n => do return (env, ← env.typeOf (.named n))
  | .enum values => do return (← declareValues path name env 0 values, .enum name)
  | .record fields => do return (env, .record name (← fieldsOf path env [] fields))
  | .array ranges elem => do
      let dims ← ranges.mapM (dimension path env)
      return (env, arrayOf dims (← env.typeOf elem))

def declareType (path : ScopePath) (env : Environment) (decl : String × Source.TypeSpec) :
    Except CheckError Environment := do
  if (env.types.lookup decl.1).isSome then throw (.redefined .type path.text decl.1)
  let (env, ty) ← specify path env decl.1 decl.2
  return env.addType decl.1 ty

def declareVar (path : ScopePath) (env : Environment) (decl : String × Source.TypeRef) :
    Except CheckError Environment := do
  if (env.vars.lookup decl.1).isSome then throw (.redefined .var path.text decl.1)
  return { env with vars := env.vars ++ [(decl.1, ← env.typeOf decl.2)] }

/-- A record or an array is passed by reference only. -/
def passing (env : Environment) (routine : String) (p : Source.Param) :
    Except CheckError Passing := do
  let ty ← env.typeOf p.ty
  if ty.isAggregate && !p.byRef then throw (.aggregateByValue p.name routine)
  return ⟨ty, p.byRef⟩

def resultOf (env : Environment) (h : Source.Heading) : Except CheckError (Option Ty) :=
  match h.result with
  | none => .ok none
  | some ref => do
      let ty ← env.typeOf ref
      if ty.isAggregate then throw (.aggregateResult h.name)
      return some ty

/-- The headings of a block; `seen` are the routine names of the block so far. -/
def declareHeadings (path : ScopePath) (env : Environment) (seen : List String) :
    List (Source.Heading × Source.Block) → Except CheckError Environment
  | [] => .ok env
  | (h, _) :: rest => do
      if seen.contains h.name then throw (.redefined .routine path.text h.name)
      let params ← h.params.mapM (env.passing h.name)
      let result ← env.resultOf h
      let own := path ++ [h.name]
      declareHeadings path { env with routines := env.routines ++ [(own, ⟨own.method, params, result⟩)] }
        (h.name :: seen) rest

/-- The declarations of a block that stand before its nested blocks. Only the variables of
the program itself belong to the environment. -/
def declareOwn (path : ScopePath) (env : Environment) (b : Source.Block) :
    Except CheckError Environment := do
  let env ← b.consts.foldlM (declareConst path) env
  let env ← b.types.foldlM (declareType path) env
  let env ← if path.isEmpty then b.vars.foldlM (declareVar path) env else pure env
  declareHeadings path env [] b.routines

mutual

/-- Add the declarations of a block and of all blocks inside it. -/
def declareBlock (path : ScopePath) (env : Environment) :
    Source.Block → Except CheckError Environment
  | ⟨consts, types, vars, routines, body⟩ => do
      let env ← declareOwn path env ⟨consts, types, vars, routines, body⟩
      declareNested path env routines

def declareNested (path : ScopePath) (env : Environment) :
    List (Source.Heading × Source.Block) → Except CheckError Environment
  | [] => .ok env
  | (h, b) :: rest => do
      let env ← declareBlock (path ++ [h.name]) env b
      declareNested path env rest

end

/-- The environment of a program. -/
def ofProgram (p : Source.Program) : Except CheckError Environment :=
  declareBlock [] .empty p.block

end Environment
end PascalJvm
