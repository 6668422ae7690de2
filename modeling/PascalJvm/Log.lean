import PascalJvm.Ty

/-!
# Events and traced outcomes

What the compiler reports while it works is data: an `Event`. A `Traced` computation has
an outcome, which may be an error, and the events up to that point; a failure keeps
the events that came before it. Outcomes compose without regard to events
(`Traced.outcome_bind`).
-/
namespace PascalJvm

/-- One report. -/
inductive Event
  /-- an include file was read -/
  | including (path : String)
  /-- a program was checked -/
  | program (name : String) (globals routines records : Nat)
  /-- a listing was written to a file -/
  | wrote (path : String)
  /-- the type of an argument in a call -/
  | argument (scope : String) (number : Nat) (ty : Ty)
  /-- a routine was checked -/
  | routine (method : String) (slots : Nat)
  /-- the slots of a routine's parameters and variables -/
  | slots (method : String) (params locals : List (String × Nat))
  /-- code was generated for a method -/
  | method (name : String) (count : Nat)
  /-- code generation enters a statement -/
  | statement (kind : String) (depth : Nat)
  /-- a label was bound -/
  | bind (label position depth : Nat)
  /-- a method body was completed -/
  | finished (count maxStack : Nat)
deriving Repr

inductive Level
  | info
  | debug
  | trace
deriving DecidableEq, Repr

namespace Level

def name : Level → String
  | info => "INFO"
  | debug => "DEBUG"
  | trace => "TRACE"

/-- Smaller is more severe. -/
def rank : Level → Nat
  | info => 0
  | debug => 1
  | trace => 2

end Level

namespace Event

def level : Event → Level
  | wrote _ => .info
  | statement .. | bind .. => .trace
  | _ => .debug

/-- The part of the compiler that reports the event. -/
def origin : Event → String
  | including _ | program .. | wrote _ => "pascalc"
  | argument .. | routine .. => "pascalc::sema"
  | slots .. | method .. => "pascalc::codegen::program"
  | statement .. => "pascalc::codegen::stmt"
  | bind .. | finished .. => "pascalc::sink"

/-- Names with their slots, as a bracketed list of quoted pairs. -/
def slotList (entries : List (String × Nat)) : String :=
  let pairs := entries.map fun (n, slot) => "(\"" ++ n ++ "\", " ++ toString slot ++ ")"
  "[" ++ String.intercalate ", " pairs ++ "]"

def message : Event → String
  | including path => "including " ++ path
  | program name globals routines records =>
      s!"program {name}: {globals} globals, {routines} routines, {records} records"
  | wrote path => "wrote " ++ path
  | argument scope number ty => s!"{scope}: arg #{number} " ++ ty.describe
  | routine name count => s!"checked routine {name} ({count} slots)"
  | slots name params locals =>
      s!"{name}: params " ++ slotList params ++ ", locals " ++ slotList locals
  | method name count => s!"{name}: {count} instructions"
  | statement kind depth => s!"stmt {kind} at depth {depth}"
  | bind label position depth => s!"bind L#{label} at {position} (depth {depth})"
  | finished count maxStack => s!"method finished: {count} instructions, max stack {maxStack}"

end Event

/-- An outcome with the events that led to it. -/
structure Traced (ε α : Type) where
  events : List Event
  outcome : Except ε α

namespace Traced

variable {ε ε' α β : Type}

def pure (a : α) : Traced ε α := ⟨[], .ok a⟩

def bind (x : Traced ε α) (f : α → Traced ε β) : Traced ε β :=
  match x with
  | ⟨es, .error e⟩ => ⟨es, .error e⟩
  | ⟨es, .ok a⟩ =>
      let y := f a
      ⟨es ++ y.events, y.outcome⟩

instance : Monad (Traced ε) where
  pure := Traced.pure
  bind := Traced.bind

/-- Stop with an error. -/
def fail (e : ε) : Traced ε α := ⟨[], .error e⟩

/-- Report an event. -/
def report (e : Event) : Traced ε Unit := ⟨[e], .ok ()⟩

/-- An outcome without events. -/
def ofExcept (x : Except ε α) : Traced ε α := ⟨[], x⟩

def mapError (f : ε → ε') (x : Traced ε α) : Traced ε' α := ⟨x.events, x.outcome.mapError f⟩

@[simp] theorem outcome_pure (a : α) : (Pure.pure a : Traced ε α).outcome = .ok a := rfl

@[simp] theorem outcome_fail (e : ε) : (fail e : Traced ε α).outcome = .error e := rfl

@[simp] theorem outcome_report (e : Event) : (report e : Traced ε Unit).outcome = .ok () := rfl

@[simp] theorem outcome_ofExcept (x : Except ε α) : (ofExcept x).outcome = x := rfl

/-- The outcome of a sequence is the sequence of the outcomes. -/
@[simp] theorem outcome_bind (x : Traced ε α) (f : α → Traced ε β) :
    (x >>= f).outcome = x.outcome >>= fun a => (f a).outcome := by
  obtain ⟨es, o⟩ := x
  cases o <;> rfl

end Traced
end PascalJvm
