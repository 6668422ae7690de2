import PascalJvm.Check.Statement

/-!
# Checking programs

Routines are checked in the order of their declarations, each before the routines inside it,
and the body of the program last. Parameters take the first slots of a routine, then its
variables, and then the result of a function.
-/
namespace PascalJvm.Check

open Typed

/-- The variables of a routine while they are declared. -/
structure Frame where
  symbols : List (String × Symbol)
  nextSlot : Nat
deriving Repr

namespace Frame

def empty : Frame := ⟨[], 0⟩

/-- Declare a variable in the next slot. Its name must be new, also among the variables of
the program. -/
def declare (env : Environment) (routine : String) (f : Frame) (name : String)
    (storage : Nat → Storage) (ty : Ty) : Except CheckError (Local × Frame) := do
  require ((f.symbols.lookup name).isNone && (env.vars.lookup name).isNone)
    (.nameConflict routine name)
  return (⟨name, f.nextSlot, ty⟩,
    ⟨f.symbols ++ [(name, ⟨name, storage f.nextSlot, ty⟩)], f.nextSlot + 1⟩)

def declareParams (env : Environment) (routine : String) (f : Frame) :
    List (Source.Param × Passing) → Except CheckError (List Local × Frame)
  | [] => .ok ([], f)
  | (p, passing) :: rest => do
      let (v, f) ← f.declare env routine p.name (if passing.inCell then .cell else .slot) passing.ty
      let (vs, f) ← declareParams env routine f rest
      return (v :: vs, f)

def declareLocals (env : Environment) (routine : String) (f : Frame) :
    List (String × Source.TypeRef) → Except CheckError (List Local × Frame)
  | [] => .ok ([], f)
  | (name, ref) :: rest => do
      let ty ← env.typeOf ref
      let (v, f) ← f.declare env routine name .slot ty
      let (vs, f) ← declareLocals env routine f rest
      return (v :: vs, f)

/-- The result of a function is a variable with the function's name. -/
def declareResult (env : Environment) (routine : String) (f : Frame) :
    Option Ty → Except CheckError (Option Local × Frame)
  | none => .ok (none, f)
  | some ty => do
      let (v, f) ← f.declare env routine routine .slot ty
      return (some v, f)

end Frame

/-- Check one routine; `visible` are the routines that its body sees. -/
def routine (env : Environment) (path : ScopePath) (visible : List (String × ScopePath))
    (h : Source.Heading) (vars : List (String × Source.TypeRef)) (body : Source.Stmt) :
    Checking Routine := do
  match env.routines.lookup path with
  | none => Traced.fail (.missingSignature path.text)
  | some sig =>
      let (params, f) ← lift (Frame.empty.declareParams env h.name (h.params.zip sig.params))
      let (locals, f) ← lift (f.declareLocals env h.name vars)
      let (result, f) ← lift (f.declareResult env h.name sig.result)
      let checked ← stmt ⟨env, path, f.symbols, visible⟩ body
      Traced.report (.routine sig.method f.nextSlot)
      return ⟨sig, params, locals, result, f.nextSlot, checked⟩

mutual

/-- Check a routine and the routines inside it. -/
def nested (env : Environment) (path : ScopePath) (outer : List (String × ScopePath))
    (h : Source.Heading) : Source.Block → Checking (List Routine)
  | ⟨_, _, vars, inner, body⟩ => do
      let visible := visibleIn path outer inner
      let own ← routine env path visible h vars body
      return own :: (← routines env path visible inner)

/-- Check the routines of a block, which are all visible in it. -/
def routines (env : Environment) (path : ScopePath) (visible : List (String × ScopePath)) :
    List (Source.Heading × Source.Block) → Checking (List Routine)
  | [] => return []
  | (h, b) :: rest => do
      let own ← nested env (path ++ [h.name]) visible h b
      return own ++ (← routines env path visible rest)

end

/-- Add a record in its place by name. -/
def insertRecord (r : RecordTy) : List RecordTy → List RecordTy
  | [] => [r]
  | x :: rest => if r.name < x.name then r :: x :: rest else x :: insertRecord r rest

mutual

/-- Add the records that occur in a type to those that are known. -/
def addRecords (known : List RecordTy) : Ty → List RecordTy
  | .record name fields =>
      if known.any fun r => r.name = name then known
      else addFieldRecords (insertRecord ⟨name, fields⟩ known) fields
  | .array _ _ elem => addRecords known elem
  | _ => known

def addFieldRecords (known : List RecordTy) : List (String × Ty) → List RecordTy
  | [] => known
  | (_, ty) :: rest => addFieldRecords (addRecords known ty) rest

end

/-- The records that occur in the declared types, ascending by name. -/
def records (types : List (String × Ty)) : List RecordTy :=
  types.foldl (fun known (_, ty) => addRecords known ty) []

/-- Check a program against its environment. -/
def program (env : Environment) (p : Source.Program) : Checking Program := do
  let visible := visibleIn [] [] p.block.routines
  let checked ← routines env [] visible p.block.routines
  let body ← stmt ⟨env, [], [], visible⟩ p.block.body
  return ⟨p.name, env.vars, records env.types, checked, body⟩

end PascalJvm.Check
