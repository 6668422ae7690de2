import PascalJvm.Jvm.Instr
import PascalJvm.Log

/-!
# The assembler

The assembler takes the instructions of one method body in order, keeps account of the depth
of the operand stack, and binds labels. Every way into a label must agree on the depth there.
Code right after a jump is not reached from above, so a label there takes the depth of the
jumps to it. The first fault is kept and the result is an error; otherwise the result is the
code with the greatest depth that it reaches.
-/
namespace PascalJvm.Jvm

inductive AssemblyError
  | redefined (l : Label)
  | unresolved (l : Label)
  | underflow (position : Nat)
  | depthMismatch (l : Label) (expected found : Nat)
deriving DecidableEq, Repr

def AssemblyError.message : AssemblyError → String
  | redefined l => s!"label L#{l} defined twice"
  | unresolved l => s!"label L#{l} is referenced but never defined"
  | underflow position => s!"operand stack underflow at instruction {position}"
  | depthMismatch l expected found =>
      s!"operand stack depth at L#{l} is {found}, expected {expected}"

/-- What is known of a label: where it is bound, and the depth there. A jump to a label that
is not yet bound fixes its depth. -/
structure LabelInfo where
  position : Option Nat := none
  depth : Option Nat := none
deriving DecidableEq, Repr, Inhabited

structure Assembler where
  code : Array Instr
  depth : Nat
  maxDepth : Nat
  /-- whether control can come from the instruction before -/
  reachable : Bool
  labels : Array LabelInfo
  fault : Option AssemblyError
deriving Repr

/-- What the assembler can be told to do. -/
inductive Op
  /-- make the next label known -/
  | newLabel
  /-- count operands that are pushed -/
  | push (n : Nat)
  /-- count operands that are popped -/
  | pop (n : Nat)
  | emit (i : Instr)
  /-- enter a statement; only reported -/
  | enter (statement : String)
deriving Repr

/-- A method body: instructions, with every label resolved, and the greatest stack depth. -/
structure Code where
  instrs : List Instr
  maxStack : Nat
deriving Repr

namespace Assembler

def start : Assembler := ⟨#[], 0, 0, true, #[], none⟩

/-- Note a fault. Only the first one counts. -/
def fail (a : Assembler) (e : AssemblyError) : Assembler :=
  match a.fault with
  | some _ => a
  | none => { a with fault := some e }

def push (a : Assembler) (n : Nat) : Assembler :=
  { a with depth := a.depth + n, maxDepth := max a.maxDepth (a.depth + n) }

def pop (a : Assembler) (n : Nat) : Assembler :=
  if a.depth < n then { a.fail (.underflow a.code.size) with depth := 0 }
  else { a with depth := a.depth - n }

/-- A jump to `l` from the current depth. -/
def jump (a : Assembler) (l : Label) : Assembler :=
  match a.labels[l]? with
  | none => a.fail (.unresolved l)
  | some info =>
      match info.depth with
      | some expected =>
          if expected = a.depth then a else a.fail (.depthMismatch l expected a.depth)
      | none => { a with labels := a.labels.setIfInBounds l { info with depth := some a.depth } }

/-- Meet the depth that earlier jumps have fixed for a label. -/
def meet (a : Assembler) (l : Label) (expected : Option Nat) : Assembler :=
  match expected with
  | none => a
  | some d =>
      if !a.reachable then { a with depth := d }
      else if d = a.depth then a
      else a.fail (.depthMismatch l d a.depth)

/-- The label stands here. -/
def place (a : Assembler) (l : Label) : Assembler :=
  { a with
    labels := a.labels.setIfInBounds l ⟨some a.code.size, some a.depth⟩
    reachable := true
    code := a.code.push (.label l) }

/-- Bind a label, which may happen once. -/
def bind (a : Assembler) (l : Label) : Assembler :=
  match a.labels[l]? with
  | none => a.fail (.unresolved l)
  | some ⟨some _, _⟩ => a.fail (.redefined l)
  | some ⟨none, expected⟩ => (a.meet l expected).place l

/-- The instruction takes its operands and leaves its results. -/
def account (a : Assembler) (e : Effect) : Assembler :=
  let a := a.pop e.pops
  { a with maxDepth := max a.maxDepth (a.depth + e.pushes + e.scratch) }.push e.pushes

def emit (a : Assembler) (i : Instr) : Assembler :=
  match i with
  | .label l => a.bind l
  | i =>
      let a := i.targets.foldl jump (a.account i.effect)
      { a with reachable := a.reachable && !i.endsFlow, code := a.code.push i }

def step (a : Assembler) : Op → Assembler
  | .newLabel => { a with labels := a.labels.push {} }
  | .push n => a.push n
  | .pop n => a.pop n
  | .emit i => a.emit i
  | .enter _ => a

def run (a : Assembler) (ops : List Op) : Assembler := ops.foldl step a

/-- The first label that is jumped to and not bound; `n` is the number of the first one. -/
def unbound? (n : Label) : List LabelInfo → Option Label
  | [] => none
  | ⟨none, some _⟩ :: _ => some n
  | _ :: rest => unbound? (n + 1) rest

def finish (a : Assembler) : Except AssemblyError Code :=
  match a.fault with
  | some e => .error e
  | none =>
      match unbound? 0 a.labels.toList with
      | some l => .error (.unresolved l)
      | none => .ok ⟨a.code.toList, a.maxDepth⟩

/-- What is reported when the operation is done in state `a`. -/
def eventOf? (a : Assembler) : Op → Option Event
  | .enter statement => some (.statement statement a.depth)
  | .emit (.label l) =>
      match a.labels[l]? with
      | some ⟨none, expected⟩ => some (.bind l a.code.size (a.meet l expected).depth)
      | _ => none
  | _ => none

/-- The reports of a run. -/
def eventsFrom (a : Assembler) : List Op → List Event
  | [] => []
  | op :: ops =>
      match a.eventOf? op with
      | some e => e :: (a.step op).eventsFrom ops
      | none => (a.step op).eventsFrom ops

end Assembler

/-- Assemble a method body. -/
def assemble (ops : List Op) : Except AssemblyError Code := (Assembler.start.run ops).finish

namespace Code

/-- The labels of a body, in the order of their places. -/
def labels (c : Code) : List Label := c.instrs.filterMap Instr.bound?

end Code
end PascalJvm.Jvm
