import Mathlib.Logic.Relation
import Mathlib.Tactic
import PascalJvm.Proofs.ControlFlow
import PascalJvm.Proofs.Meaning

/-!
# Running code

A machine that runs the instructions of a method body on an operand stack and a store, one
instruction at a time. Jumps go to the place where the label stands. What the instructions of a
block compute is stated by `Runs`: wherever the block stands in a code that binds each label
once, running it from its start either reaches its end or traps, as the computation does.
-/
namespace PascalJvm

/-- Whether the relation holds between two integers. -/
def Jvm.Relation.holds : Relation → Int32 → Int32 → Bool
  | .eq, i, j => i = j
  | .ne, i, j => i ≠ j
  | .lt, i, j => i < j
  | .le, i, j => i ≤ j
  | .gt, i, j => j < i
  | .ge, i, j => j ≤ i

namespace Run

open Jvm

/-- The operand stack, with its top first, and the store. -/
structure State where
  stack : List Value
  store : Store

structure Config where
  pc : Nat
  state : State

def intArith : ArithOp → Int32 → Int32 → Eval Int32
  | .add, i, j => .ok (i + j)
  | .sub, i, j => .ok (i - j)
  | .mul, i, j => .ok (i * j)
  | .div, i, j => if j = 0 then .error (.trap .divisionByZero) else .ok (i / j)
  | .rem, i, j => if j = 0 then .error (.trap .divisionByZero) else .ok (i % j)
  | .and, i, j => .ok (i &&& j)
  | .or, i, j => .ok (i ||| j)
  | .xor, i, j => .ok (i ^^^ j)
  | .neg, _, _ => .error .stuck

def floatArith (host : Host) : ArithOp → Single → Single → Eval Single
  | .add, x, y => .ok (host.add x y)
  | .sub, x, y => .ok (host.sub x y)
  | .mul, x, y => .ok (host.mul x y)
  | .div, x, y => .ok (host.div x y)
  | _, _, _ => .error .stuck

/-- What an instruction does from which control goes on to the next one. Calls, allocation and
the other operations of the host are not modelled. -/
def work (host : Host) : Instr → State → Eval State
  | .pushInt i, ⟨st, σ⟩ => .ok ⟨.int i :: st, σ⟩
  | .pushReal x, ⟨st, σ⟩ => .ok ⟨.real x :: st, σ⟩
  | .pushText s, ⟨st, σ⟩ => .ok ⟨.text s :: st, σ⟩
  | .load _ n, ⟨st, σ⟩ => do return ⟨(← σ.read (.slot n)) :: st, σ⟩
  | .store k n, ⟨v :: st, σ⟩ => do return ⟨st, ← σ.write k v (.slot n)⟩
  | .getStatic f, ⟨st, σ⟩ => do return ⟨(← σ.read (.static f.name)) :: st, σ⟩
  | .putStatic f, ⟨v :: st, σ⟩ => do return ⟨st, ← σ.write (.ofTy f.ty) v (.static f.name)⟩
  | .getField f, ⟨.ref a :: st, σ⟩ => do return ⟨(← σ.read (.field a f.name)) :: st, σ⟩
  | .putField f, ⟨v :: .ref a :: st, σ⟩ => do
      return ⟨st, ← σ.write (.ofTy f.ty) v (.field a f.name)⟩
  | .arrayLoad _, ⟨.int i :: .ref a :: st, σ⟩ => do
      return ⟨(← σ.read (.element a i.toInt)) :: st, σ⟩
  | .arrayStore k, ⟨v :: .int i :: .ref a :: st, σ⟩ => do
      return ⟨st, ← σ.write k v (.element a i.toInt)⟩
  | .arith .neg .int, ⟨.int i :: st, σ⟩ => .ok ⟨.int (-i) :: st, σ⟩
  | .arith .neg .float, ⟨.real x :: st, σ⟩ => .ok ⟨.real (host.neg x) :: st, σ⟩
  | .arith op .int, ⟨.int j :: .int i :: st, σ⟩ => do return ⟨.int (← intArith op i j) :: st, σ⟩
  | .arith op .float, ⟨.real y :: .real x :: st, σ⟩ => do
      return ⟨.real (← floatArith host op x y) :: st, σ⟩
  | .intToFloat, ⟨.int i :: st, σ⟩ => .ok ⟨.real (host.ofInt i) :: st, σ⟩
  | .compareFloats, ⟨.real y :: .real x :: st, σ⟩ => .ok ⟨.int (host.compareReals x y) :: st, σ⟩
  | .invoke .compareStrings, ⟨.text t :: .text s :: st, σ⟩ =>
      .ok ⟨.int (host.compareTexts s t) :: st, σ⟩
  | .dup, ⟨v :: st, σ⟩ => .ok ⟨v :: v :: st, σ⟩
  | .pop, ⟨_ :: st, σ⟩ => .ok ⟨st, σ⟩
  | _, _ => .error .stuck

/-- What an instruction does, and the label that control goes to if not to the next one. -/
def act (host : Host) : Instr → State → Eval (Option Label × State)
  | .label _, s => .ok (none, s)
  | .goto l, s => .ok (some l, s)
  | .ifZero r l, ⟨.int i :: st, σ⟩ => .ok (if r.holds i 0 then some l else none, ⟨st, σ⟩)
  | .ifCompare r l, ⟨.int j :: .int i :: st, σ⟩ =>
      .ok (if r.holds i j then some l else none, ⟨st, σ⟩)
  | .lookupSwitch table default, ⟨.int i :: st, σ⟩ =>
      .ok (some ((table.lookup i).getD default), ⟨st, σ⟩)
  | ins, s => do return (none, ← work host ins s)

/-- Where a label stands. -/
def place (code : List Instr) (l : Label) : Option Nat :=
  code.findIdx? fun ins => ins.bound? = some l

def goTo (code : List Instr) (pc : Nat) : Option Label → Eval Nat
  | none => .ok (pc + 1)
  | some l => Store.orStuck (place code l)

def step (host : Host) (code : List Instr) (c : Config) : Eval Config := do
  let ins ← Store.orStuck code[c.pc]?
  let (target, s) ← act host ins c.state
  return ⟨← goTo code c.pc target, s⟩

def Reaches (host : Host) (code : List Instr) : Config → Config → Prop :=
  Relation.ReflTransGen fun c d => step host code c = .ok d

def Traps (host : Host) (code : List Instr) (c : Config) (t : Trap) : Prop :=
  ∃ d, Reaches host code c d ∧ step host code d = .error (.trap t)

/-- From `c` the machine does as the computation: with its result it comes to a configuration,
and with its trap it traps. -/
structure Follows (host : Host) (code : List Instr) {α : Type} (c : Config) (x : Eval α)
    (out : α → Config) : Prop where
  reaches {a : α} (h : x = .ok a) : Reaches host code c (out a)
  traps {t : Trap} (h : x = .error (.trap t)) : Traps host code c t

namespace Follows

variable {α β : Type} {host : Host} {code : List Instr} {c d : Config} {x : Eval α}
  {out : α → Config}

lemma ok {a : α} (hc : c = out a) : Follows host code c (.ok a) out where
  reaches h := by
    cases h
    exact hc ▸ .refl
  traps h := by cases h

lemma after (hcd : Reaches host code c d) (h : Follows host code d x out) :
    Follows host code c x out where
  reaches hx := hcd.trans (h.reaches hx)
  traps hx := by
    obtain ⟨e, hde, he⟩ := h.traps hx
    exact ⟨e, hcd.trans hde, he⟩

lemma step (hcd : step host code c = .ok d) (h : Follows host code d x out) :
    Follows host code c x out :=
  h.after (.single hcd)

lemma bind {f : α → Eval β} {out' : β → Config} (h : Follows host code c x out)
    (hf : ∀ a, x = .ok a → Follows host code (out a) (f a) out') :
    Follows host code c (x >>= f) out' := by
  match x, h, hf with
  | .ok a, h, hf => exact (hf a rfl).after (h.reaches rfl)
  | .error e, h, _ =>
    constructor
    · intro b hx
      cases hx
    · intro t hx
      cases hx
      exact h.traps rfl

/-- One more step after the result. -/
lemma finish {out' : α → Config} (h : Follows host code c x out)
    (hstep : ∀ a, Run.step host code (out a) = .ok (out' a)) : Follows host code c x out' := by
  rw [← bind_pure x]
  exact h.bind fun a _ => .step (hstep a) (.ok rfl)

/-- The machine repeats a round as long as the round says so. -/
lemma iterate {Γ : Typed.Variables} {round : Store → Eval (Store × Bool)} {top exit : Nat}
    {st : List Value} (hshape : RoundKeepsShape Γ round)
    (hround : ∀ σ : Store, σ.WellTyped Γ.statics Γ.slots →
      Follows host code ⟨top, st, σ⟩ (round σ) fun r => ⟨if r.2 then top else exit, st, r.1⟩)
    (fuel : Nat) {σ : Store} (hσ : σ.WellTyped Γ.statics Γ.slots) :
    Follows host code ⟨top, st, σ⟩ (iterate round fuel σ) fun τ => ⟨exit, st, τ⟩ := by
  induction fuel generalizing σ with
  | zero => constructor <;> intro _ h <;> cases h
  | succ fuel ih =>
    refine (hround σ hσ).bind fun (τ, again) hτ => ?_
    cases again with
    | true => exact ih (hσ.alike ((hshape hσ).of_ok hτ))
    | false => exact .ok rfl

end Follows

/-- The block stands in the code at position `p`. -/
def CodeAt (code : List Instr) (p : Nat) (block : List Instr) : Prop :=
  ∀ (j : Nat) ins, block[j]? = some ins → code[p + j]? = some ins

section

variable {code xs ys : List Instr} {p : Nat}

@[simp] theorem codeAt_nil : CodeAt code p [] := by simp [CodeAt]

@[simp] theorem codeAt_append :
    CodeAt code p (xs ++ ys) ↔ CodeAt code p xs ∧ CodeAt code (p + xs.length) ys := by
  constructor
  · intro h
    refine ⟨fun j ins hj => h j ins ?_, fun j ins hj => ?_⟩
    · rw [List.getElem?_append_left (List.getElem?_eq_some_iff.mp hj).1, hj]
    · rw [Nat.add_assoc]
      refine h _ _ ?_
      rw [List.getElem?_append_right (by omega), Nat.add_sub_cancel_left, hj]
  · rintro ⟨hx, hy⟩ j ins hj
    rw [List.getElem?_append] at hj
    split_ifs at hj with hlt
    · exact hx j ins hj
    · have := hy _ _ hj
      rwa [show p + xs.length + (j - xs.length) = p + j by omega] at this

@[simp] theorem codeAt_singleton {ins : Instr} : CodeAt code p [ins] ↔ code[p]? = some ins := by
  constructor
  · exact fun h => h 0 ins rfl
  · intro h j ins' hj
    cases j with
    | zero => cases hj; exact h
    | succ j => cases hj

@[simp] theorem codeAt_cons {ins : Instr} :
    CodeAt code p (ins :: xs) ↔ code[p]? = some ins ∧ CodeAt code (p + 1) xs := by
  rw [← List.singleton_append, codeAt_append, codeAt_singleton]
  rfl

lemma codeAt_self : CodeAt xs 0 xs := fun j ins hj => by rwa [Nat.zero_add]

lemma codeAt_of_append (before after : List Instr) :
    CodeAt (before ++ xs ++ after) before.length xs := by
  intro j ins hj
  have hlt := (List.getElem?_eq_some_iff.mp hj).1
  rw [List.append_assoc, List.getElem?_append_right (by omega), Nat.add_sub_cancel_left,
    List.getElem?_append_left hlt, hj]

/-- A label that is bound once is found where it stands. -/
lemma place_eq {l : Label} (hn : (boundLabels code).Nodup) (h : code[p]? = some (.label l)) :
    place code l = some p := by
  have hlt := (List.getElem?_eq_some_iff.mp h).1
  rw [place, List.findIdx?_eq_some_iff_getElem]
  refine ⟨hlt, ?_, fun j hj => ?_⟩
  · rw [(List.getElem?_eq_some_iff.mp h).2]
    simp [Instr.bound?]
  · intro hbound
    have hj' : code[j]? = some (.label l) := by
      rw [List.getElem?_eq_getElem (by omega),
        Instr.eq_label_of_bound (of_decide_eq_true hbound)]
    have := label_place_unique hn hj' h
    omega

end

section

variable {host : Host} {code : List Instr} {p q : Nat} {l : Label} {st : List Value} {σ : Store}

lemma step_of_act {ins : Instr} {s s' : State} {target : Option Label} (h : code[p]? = some ins)
    (hact : act host ins s = .ok (target, s')) (hgo : goTo code p target = .ok q) :
    step host code ⟨p, s⟩ = .ok ⟨q, s'⟩ := by
  simp only [step, h, Store.orStuck]
  change (act host ins s >>= _) = _
  rw [hact]
  change (goTo code p target >>= _) = _
  rw [hgo]
  rfl

lemma goTo_label (hn : (boundLabels code).Nodup) (hl : code[q]? = some (.label l)) :
    goTo code p (some l) = .ok q := by
  rw [goTo, place_eq hn hl, Store.orStuck]

lemma goTo_branch (hn : (boundLabels code).Nodup) (hl : code[q]? = some (.label l)) (b : Bool) :
    goTo code p (if b then some l else none) = .ok (if b then q else p + 1) := by
  cases b with
  | false => rfl
  | true => exact goTo_label hn hl

lemma step_label {s : State} (h : code[p]? = some (.label l)) :
    step host code ⟨p, s⟩ = .ok ⟨p + 1, s⟩ :=
  step_of_act h rfl rfl

lemma step_goto {s : State} (hn : (boundLabels code).Nodup) (h : code[p]? = some (.goto l))
    (hl : code[q]? = some (.label l)) : step host code ⟨p, s⟩ = .ok ⟨q, s⟩ :=
  step_of_act h rfl (goTo_label hn hl)

lemma step_ifZero {r : Relation} {i : Int32} (hn : (boundLabels code).Nodup)
    (h : code[p]? = some (.ifZero r l)) (hl : code[q]? = some (.label l)) :
    step host code ⟨p, .int i :: st, σ⟩ = .ok ⟨if r.holds i 0 then q else p + 1, st, σ⟩ :=
  step_of_act h rfl (goTo_branch hn hl _)

lemma step_ifCompare {r : Relation} {i j : Int32} (hn : (boundLabels code).Nodup)
    (h : code[p]? = some (.ifCompare r l)) (hl : code[q]? = some (.label l)) :
    step host code ⟨p, .int j :: .int i :: st, σ⟩ =
      .ok ⟨if r.holds i j then q else p + 1, st, σ⟩ :=
  step_of_act h rfl (goTo_branch hn hl _)

lemma step_lookupSwitch {table : List (Int32 × Label)} {default : Label} {i : Int32}
    (hn : (boundLabels code).Nodup) (h : code[p]? = some (.lookupSwitch table default))
    (hl : code[q]? = some (.label ((table.lookup i).getD default))) :
    step host code ⟨p, .int i :: st, σ⟩ = .ok ⟨q, st, σ⟩ :=
  step_of_act h rfl (goTo_label hn hl)

lemma act_of_straight {ins : Instr} (h : ins.straight = true) (s : State) :
    act host ins s = do return (none, ← work host ins s) := by
  cases ins <;> first | rfl | cases h

/-- The instructions of straight code, one after the other. -/
def workAll (host : Host) : List Instr → State → Eval State
  | [], s => .ok s
  | ins :: rest, s => do workAll host rest (← work host ins s)

@[simp] theorem workAll_singleton (ins : Instr) (s : State) :
    workAll host [ins] s = work host ins s := by
  simp only [workAll]
  cases work host ins s <;> rfl

lemma workAll_cons_ok {ins : Instr} {rest : List Instr} {s s' : State}
    (h : work host ins s = .ok s') : workAll host (ins :: rest) s = workAll host rest s' := by
  rw [workAll, h]
  rfl

lemma follows_work {ins : Instr} (hs : ins.straight = true) (h : code[p]? = some ins) (s : State) :
    Follows host code ⟨p, s⟩ (work host ins s) fun s' => ⟨p + 1, s'⟩ := by
  have hstep : step host code ⟨p, s⟩ = do return ⟨p + 1, ← work host ins s⟩ := by
    simp only [step, h, Store.orStuck]
    change (act host ins s >>= _) = _
    rw [act_of_straight hs]
    cases work host ins s <;> rfl
  refine ⟨fun hx => .single ?_, fun hx => ⟨_, .refl, ?_⟩⟩
  · rw [hstep, hx]
    rfl
  · rw [hstep, hx]
    rfl

lemma follows_workAll {block : List Instr} (hs : Straight block) (h : CodeAt code p block)
    (s : State) :
    Follows host code ⟨p, s⟩ (workAll host block s) fun s' => ⟨p + block.length, s'⟩ := by
  induction block generalizing p s with
  | nil => exact .ok rfl
  | cons ins rest ih =>
    rw [codeAt_cons] at h
    obtain ⟨hins, hrest⟩ := List.forall_mem_cons.mp hs
    refine (follows_work hins h.1 s).bind fun s' _ => ?_
    simpa only [List.length_cons, Nat.add_assoc, Nat.add_comm 1] using ih hrest h.2 s'

end

/-- Wherever the block stands, it does as the computation. -/
def Runs (host : Host) {α : Type} (block : List Instr) (s : State) (x : Eval α)
    (out : α → State) : Prop :=
  ∀ ⦃code : List Instr⦄ ⦃p : Nat⦄, (boundLabels code).Nodup → CodeAt code p block →
    Follows host code ⟨p, s⟩ x fun a => ⟨p + block.length, out a⟩

namespace Runs

variable {α β : Type} {host : Host} {block block' : List Instr} {s : State} {x : Eval α}
  {out : α → State}

lemma nil (a : α) : Runs host [] (out a) (.ok a) out := fun _ _ _ _ => .ok rfl

lemma append {f : α → Eval β} {out' : β → State} (h : Runs host block s x out)
    (hf : ∀ a, x = .ok a → Runs host block' (out a) (f a) out') :
    Runs host (block ++ block') s (x >>= f) out' := by
  intro code p hn hcode
  rw [codeAt_append] at hcode
  refine (h hn hcode.1).bind fun a ha => ?_
  simpa only [List.length_append, Nat.add_assoc] using hf a ha hn hcode.2

/-- A result that is only taken in another way. -/
lemma recast {f : α → Eval β} {out' : β → State} (h : Runs host block s x out)
    (hf : ∀ a, x = .ok a → ∃ b, f a = .ok b ∧ out' b = out a) :
    Runs host block s (x >>= f) out' := by
  rw [← List.append_nil block]
  refine h.append fun a ha => ?_
  obtain ⟨b, hb, hout⟩ := hf a ha
  rw [hb, ← hout]
  exact nil b

/-- Straight code does what its instructions do. -/
lemma straight (hs : Straight block) (h : workAll host block s = do return out (← x)) :
    Runs host block s x out := by
  intro code p _ hcode
  have hwork : Follows host code ⟨p, s⟩ (workAll host block s) _ := follows_workAll hs hcode s
  refine ⟨fun hx => ?_, fun hx => hwork.traps ?_⟩
  · exact hwork.reaches (by rw [h, hx]; rfl)
  · rw [h, hx]
    rfl

/-- Straight code that only changes the result. -/
lemma snoc {out' : α → State} (h : Runs host block s x out) (hs : Straight block')
    (hwork : ∀ a, x = .ok a → workAll host block' (out a) = .ok (out' a)) :
    Runs host (block ++ block') s x out' := by
  rw [← bind_pure x]
  exact h.append fun a ha => straight (x := .ok a) hs (hwork a ha)

end Runs

end Run
end PascalJvm
