import PascalJvm.Jvm.Assembler

/-!
# Fresh labels and slots

Code generation draws labels and temporary slots from a supply. Labels are never given out
twice in a method; temporary slots are returned when the construct that took them is done.
The supply remembers the largest number of slots ever in use.
-/
namespace PascalJvm.Emit

open Jvm

inductive EmitError
  | duplicateConstant (value : Int32)
  | branchWithoutConstants
  | selectorOnCell (variableName : String)
  | argumentCount (routine : String) (found expected : Nat)
  | assembly (e : AssemblyError)
deriving DecidableEq, Repr

def EmitError.message : EmitError → String
  | duplicateConstant value => "duplicate case constant " ++ toString value.toInt
  | branchWithoutConstants => "internal error: case branch without constants"
  | selectorOnCell variableName =>
      s!"internal error: selector applied to scalar var parameter {variableName}"
  | argumentCount routine found expected =>
      s!"internal error: call to {routine} with {found} arguments, expected {expected}"
  | assembly e => "internal error: " ++ e.message

/-- What to do when two branches of a case statement name the same constant. -/
inductive CasePolicy
  | reject
  /-- the branch that comes last takes the constant -/
  | lastWins
deriving DecidableEq, Repr

structure Supply where
  /-- the next label -/
  label : Nat
  /-- the next free slot -/
  slot : Nat
  /-- the number of slots that were ever in use -/
  peak : Nat
deriving DecidableEq, Repr

/-- All slots from `n` on are free. -/
def Supply.startingAt (n : Nat) : Supply := ⟨0, n, n⟩

/-- Generation of code, which takes labels and slots and may fail. -/
abbrev Gen := StateT Supply (Except EmitError)

def freshLabel : Gen Label := fun s => .ok (s.label, { s with label := s.label + 1 })

def freshSlot : Gen Nat := fun s =>
  .ok (s.slot, { s with slot := s.slot + 1, peak := max s.peak (s.slot + 1) })

/-- Return the slots that `x` has taken. -/
def releasing {α : Type} (x : Gen α) : Gen α := fun s =>
  match x s with
  | .ok (a, t) => .ok (a, { t with slot := s.slot })
  | .error e => .error e

end PascalJvm.Emit
