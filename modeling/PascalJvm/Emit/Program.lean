import PascalJvm.Emit.Default
import PascalJvm.Emit.Statement
import PascalJvm.Jvm.Class

/-!
# Code for programs

A program becomes one class for itself and one for each record type. Before any statement
runs, every variable has its initial value: `main` sets the global variables, a routine its
own, and the constructor of a record the fields that are objects.
-/
namespace PascalJvm.Emit

open Jvm Typed

/-- The operations that build a method body: all labels are made known first. -/
def labelled (labels : Nat) (ops : List Op) : List Op := List.replicate labels .newLabel ++ ops

/-- Assemble a method whose slots are free from `firstFree` on. -/
def method (role : MethodRole) (firstFree : Nat) (body : Gen (List Op)) :
    Traced EmitError Method :=
  match body (.startingAt firstFree) with
  | .error e => .fail e
  | .ok (ops, supply) =>
      let ops := labelled supply.label ops
      match assemble ops with
      | .error e => ⟨Assembler.start.eventsFrom ops, .error (.assembly e)⟩
      | .ok code =>
          ⟨Assembler.start.eventsFrom ops ++ [.finished code.instrs.length code.maxStack],
            .ok ⟨role, code, supply.peak⟩⟩

/-- The fields of a record that hold objects get new ones. The record is in slot 0. -/
def initFields (record : String) : List (String × Ty) → Gen (List Instr)
  | [] => return []
  | (name, ty) :: rest => do
      if Kind.ofTy ty = .ref then
        let code ← initial ty
        let more ← initFields record rest
        return [.load .ref 0] ++ code ++ [.putField (.member record name ty)] ++ more
      else initFields record rest

def superInit : List Instr := [.load .ref 0, .invoke .objectInit]

/-- The constructor of the program class. -/
def programConstructor : Traced EmitError Method :=
  method .constructor 1 (return asm (superInit ++ [.ret none]))

def recordConstructor (r : RecordTy) : Traced EmitError Method :=
  method .constructor 1 do
    return asm (superInit ++ (← initFields r.name r.fields) ++ [.ret none])

def initGlobals : List (String × Ty) → Gen (List Instr)
  | [] => return []
  | (name, ty) :: rest => do
      let code ← initial ty
      let more ← initGlobals rest
      return code ++ [.putStatic (.global name ty)] ++ more

/-- The main method. Slot 0 holds its argument. -/
def mainMethod (policy : CasePolicy) (p : Program) : Traced EmitError Method := do
  let m ← method .main 1 do
    let codeGlobals ← initGlobals p.globals
    let codeBody ← stmt policy p.body
    return asm ([.invoke .openInput] ++ codeGlobals) ++ codeBody ++ asm [.ret none]
  Traced.report (.method "main" m.code.instrs.length)
  return m

def initLocals : List Local → Gen (List Instr)
  | [] => return []
  | v :: rest => do
      let code ← initial v.ty
      let more ← initLocals rest
      return code ++ [.store (.ofTy v.ty) v.slot] ++ more

/-- Return from a routine, with its result if it has one. -/
def leave : Option Local → List Instr
  | some v => [.load (.ofTy v.ty) v.slot, .ret (some (.ofTy v.ty))]
  | none => [.ret none]

def routineMethod (policy : CasePolicy) (r : Routine) : Traced EmitError Method := do
  Traced.report (.slots r.signature.method (r.params.map fun v => (v.name, v.slot))
    (r.locals.map fun v => (v.name, v.slot)))
  let m ← method (.routine (.ofSignature r.signature)) r.nextSlot do
    let codeLocals ← initLocals (r.locals ++ r.result.toList)
    let codeBody ← stmt policy r.body
    return asm codeLocals ++ codeBody ++ asm (leave r.result)
  Traced.report (.method r.signature.method m.code.instrs.length)
  return m

def fieldDecls (fields : List (String × Ty)) : List FieldDecl :=
  fields.map fun (name, ty) => ⟨name, ty⟩

def recordClass (r : RecordTy) : Traced EmitError ClassFile := do
  return ⟨.record r.name, fieldDecls r.fields, [← recordConstructor r]⟩

def programClass (policy : CasePolicy) (p : Program) : Traced EmitError ClassFile := do
  let constructor ← programConstructor
  let routines ← p.routines.mapM (routineMethod policy)
  let main ← mainMethod policy p
  return ⟨.program, fieldDecls p.globals, [constructor] ++ routines ++ [main]⟩

/-- The classes of a program, its own first. -/
def program (policy : CasePolicy) (p : Program) : Traced EmitError (List ClassFile) := do
  let own ← programClass policy p
  return own :: (← p.records.mapM recordClass)

end PascalJvm.Emit
