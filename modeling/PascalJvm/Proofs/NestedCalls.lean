import Mathlib.Tactic
import PascalJvm.Proofs.CallRuns
import PascalJvm.Proofs.EmissionFaults
import PascalJvm.Proofs.Generation

/-!
# Nested calls

Every call of a checked program, at any depth in its expressions, is run as it is meant, whatever
calls stand in its arguments: the routine is called with the arguments in order (`Run.GivenAll`),
each new cell is in its slot until it is stored back, and no other slot in use is changed.
-/
namespace PascalJvm

open Jvm

namespace Typed

mutual

/-- The calls of an expression, at any depth. -/
def Expr.invocations : Expr → List (Signature × List Arg)
  | .read _ place _ => place.invocations
  | .call _ callee args => (callee, args) :: argInvocations args
  | .unary _ _ x => x.invocations
  | .binary _ _ a b => a.invocations ++ b.invocations
  | .int _ _ | .real _ _ | .text _ _ => []

def Place.invocations : Place → List (Signature × List Arg)
  | .root _ => []
  | .field base _ _ _ => base.invocations
  | .element base index _ _ => base.invocations ++ index.invocations

def argInvocations : List Arg → List (Signature × List Arg)
  | [] => []
  | .value e :: args => e.invocations ++ argInvocations args
  | .ref place _ :: args => place.invocations ++ argInvocations args

end

/-- The calls of a statement, besides those of the statements in it. -/
def Stmt.invocations : Stmt → List (Signature × List Arg)
  | .assign target value => target.place.invocations ++ value.invocations
  | .ifThen cond _ _ | .repeatUntil _ cond | .whileDo cond _ => cond.invocations
  | .caseOf selector _ _ => selector.invocations
  | .forDo counter first last _ _ =>
      counter.place.invocations ++ (first.invocations ++ last.invocations)
  | .procedureCall callee args | .functionCall callee args => (callee, args) :: argInvocations args
  | .write _ args => args.flatMap fun a => a.expr?.toList.flatMap Expr.invocations
  | .read _ targets => targets.flatMap fun d => d.place.invocations
  | .empty | .compound _ => []

section

variable {Γ : Variables} {callee : Signature} {args : List Arg}

mutual

theorem Expr.WellTyped.invocation : {e : Expr} → (h : e.WellTyped Γ) →
    (hcall : (callee, args) ∈ e.invocations) → ArgsWellTyped Γ callee.params args
  | .read .., h, hcall => Place.WellTyped.invocation h.1 hcall
  | .call .., h, hcall => by
    rcases List.mem_cons.mp hcall with heq | hcall
    · cases heq
      exact h.2
    · exact ArgsWellTyped.invocation h.2 hcall
  | .unary _ .neg _, h, hcall => Expr.WellTyped.invocation h.1 hcall
  | .unary _ .not _, h, hcall => Expr.WellTyped.invocation h.1 hcall
  | .binary .., h, hcall =>
    (List.mem_append.mp hcall).elim (Expr.WellTyped.invocation h.1)
      (Expr.WellTyped.invocation h.2.1)

theorem Place.WellTyped.invocation : {p : Place} → (h : p.WellTyped Γ) →
    (hcall : (callee, args) ∈ p.invocations) → ArgsWellTyped Γ callee.params args
  | .field .., h, hcall => Place.WellTyped.invocation h.1 hcall
  | .element .., h, hcall =>
    (List.mem_append.mp hcall).elim (Place.WellTyped.invocation h.1)
      (Expr.WellTyped.invocation h.2.1)

theorem ArgsWellTyped.invocation : {params : List Passing} → {actual : List Arg} →
    (h : ArgsWellTyped Γ params actual) → (hcall : (callee, args) ∈ argInvocations actual) →
    ArgsWellTyped Γ callee.params args
  | [], [], _, hcall => by cases hcall
  | _ :: _, .value _ :: _, h, hcall =>
    (List.mem_append.mp hcall).elim (Expr.WellTyped.invocation h.2.1)
      (ArgsWellTyped.invocation h.2.2.2)
  | _ :: _, .ref _ _ :: _, h, hcall =>
    (List.mem_append.mp hcall).elim (Place.WellTyped.invocation h.2.1)
      (ArgsWellTyped.invocation h.2.2.2.2)

end

/-- In a well-typed statement every call has one fitting argument for each parameter. -/
lemma Stmt.WellTyped.invocation {c : Stmt} (h : c.WellTyped Γ)
    (hcall : (callee, args) ∈ c.invocations) : ArgsWellTyped Γ callee.params args := by
  cases c with
  | empty | compound body => cases hcall
  | assign target value =>
    exact (List.mem_append.mp hcall).elim h.1.place.invocation h.2.1.invocation
  | ifThen cond yes no => exact h.1.wellTyped.invocation hcall
  | caseOf selector branches otherwise => exact h.1.invocation hcall
  | repeatUntil body cond => exact h.2.wellTyped.invocation hcall
  | whileDo cond body => exact h.1.wellTyped.invocation hcall
  | forDo counter first last down body =>
    rcases List.mem_append.mp hcall with hcall | hcall
    · exact h.1.place.invocation hcall
    · exact (List.mem_append.mp hcall).elim h.2.2.1.invocation h.2.2.2.2.1.invocation
  | procedureCall callee' args' | functionCall callee' args' =>
    rcases List.mem_cons.mp hcall with heq | hcall
    · cases heq
      exact h.2
    · exact h.2.invocation hcall
  | write line written =>
    obtain ⟨a, ha, hcall⟩ := List.mem_flatMap.mp hcall
    cases a with
    | literal text => cases hcall
    | value e width =>
      have he : (callee, args) ∈ e.invocations := by simpa [WriteArg.expr?] using hcall
      exact (h _ ha).1.invocation he
  | read line targets =>
    obtain ⟨d, hd, hcall⟩ := List.mem_flatMap.mp hcall
    exact (h d hd).1.place.invocation hcall

end

end Typed

namespace Run

open Typed

section

variable {w : World} {Γ : Variables} {K : Set Nat} {σ τ : Store} {p : Passing} {x : Passed}

/-- The code of a well-typed call. -/
lemma call_ok {callee : Signature} {args : List Arg} (hargs : ArgsWellTyped Γ callee.params args)
    (s : Emit.Supply) : ∃ push cells back u v t,
      Emit.pushArgs callee.params args s = .ok ((push, cells), u) ∧
      Emit.copyBack cells args u = .ok (back, v) ∧ t.slot = s.slot ∧
      Emit.call callee args s =
        .ok (push ++ [Instr.invokeStatic (.ofSignature callee)] ++ back, t) := by
  have hfails : Emit.FailsOnly (fun _ => False) (Emit.call callee args) := Emit.call_failsOnly hargs
  cases hcall : Emit.call callee args s with
  | error e => exact (hfails s e hcall).elim
  | ok r =>
    obtain ⟨push, cells, back, u, v, hpush, hback, hslot, hcode⟩ := World.invocation_ok hcall
    exact ⟨push, cells, back, u, v, r.2, hpush, hback, hslot, by rw [← hcode]⟩

end

end Run

/-- A call with calls in both of its arguments, in one of them as an index. -/
def bumpSource : List Char :=
  ("program p; type row = array[1..5] of integer; var xs: row; " ++
    "function bump(var n: integer; d: integer): integer; begin n := n + d; bump := n end; " ++
    "procedure work; var i: integer; begin i := bump(xs[bump(i, 1)], bump(i, 2)) end; " ++
    "begin end.").toList

section

open Run

/-- What `bump` does to the cell that it is called with. -/
def bumped (g : Shared) (a : Nat) (d : Int32) : Eval (Option Value × Shared) :=
  match g.heap a with
  | some (.array [.int i]) =>
      .ok (some (.int (i + d)),
        ⟨g.statics, Function.update g.heap a (some (.array [.int (i + d)]))⟩)
  | _ => .error .timeout

/-- A world in which `bump` can be called, and nothing else comes back. -/
def bumpWorld : World where
  toHost := plainHost
  room heap :=
    match (List.range 64).find? fun a => (heap a).isNone with
    | some a => .ok a
    | none => .error .timeout
  blank _ := .int 0
  call m args g :=
    match m.result, args with
    | some (.basic .integer), [.ref a, .int d] => bumped g a d
    | _, _ => .error .timeout

lemma bumped_returned (g : Shared) (a : Nat) (d : Int32) :
    Safe (fun r => g.Returned [.ref a, .int d] (some .integer) r.1 r.2) (bumped g a d) := by
  unfold bumped
  split
  next i ha =>
    have halike : HeapsAlike g.heap
        (Function.update g.heap a (some (.array [.int (i + d)]))) := by
      refine .update ha ⟨rfl, fun j v hv => ?_⟩
      cases j with
      | zero =>
        cases hv
        exact ⟨_, rfl, trivial⟩
      | succ j => cases hv
    refine ⟨.refl _, halike, .some (hasTy_int rfl _), fun {K} hK hargs => ?_⟩
    have haK : a ∉ K := (hargs (.ref a) (by simp)).1
    have hframe : ∀ b ∈ K,
        Function.update g.heap a (some (.array [.int (i + d)])) b = g.heap b := by
      intro b hb
      have hba : b ≠ a := fun hba => haK (hba ▸ hb)
      exact Function.update_of_ne hba _ _
    refine ⟨⟨fun {b} hb => ?_, fun hv => (hK.statics hv).alike halike, fun hb ho => ?_⟩, ?_,
      hframe⟩
    · obtain ⟨o, ho⟩ := hK.present hb
      exact ⟨o, (hframe b hb).trans ho⟩
    · rcases eq_or_eq_of_update ho with ho | rfl
      · exact (hK.objects hb ho).imp fun v hv => hv.alike halike
      · intro v hv
        rw [List.mem_singleton.mp hv]
        trivial
    · rintro v ⟨⟩
      trivial
  next => trivial

lemma bumpWorld_sound (statics : List (String × Ty)) : bumpWorld.Sound statics where
  room heap := by
    unfold bumpWorld
    dsimp only
    split
    next a ha =>
      have hnone : (heap a).isNone = true := List.find?_some (p := fun a => (heap a).isNone) ha
      exact Option.isNone_iff_eq_none.mp hnone
    next => trivial
  call {callee args g} _ _ := by
    unfold bumpWorld
    dsimp only
    split
    next a d hresult _ =>
      have hcallee : callee.result = some .integer := hresult
      rw [hcallee]
      exact bumped_returned g a d
    next => trivial

/-- The array is the one object of the heap, and the variable in slot 0 is zero. -/
def bumpStore : Store where
  statics name := if name = "xs" then some (.ref 0) else none
  slots n := if n = 0 then some (.int 0) else none
  heap a := if a = 0 then some (.array [.int 7, .int 0, .int 0, .int 0, .int 0]) else none

/-- What has to be known of the variables for `bumpStore` to fit them. -/
def fitsBump (globals : List (String × Ty)) (slots : List ParamDesc) : Bool :=
  (globals.all fun g => g.1 = "xs" && (Ty.array 1 5 .integer).same g.2) &&
    match slots with
    | [.value t] => Ty.integer.same t
    | _ => false

lemma length_of_fitsBump {globals : List (String × Ty)} {slots : List ParamDesc}
    (h : fitsBump globals slots = true) : slots.length = 1 := by
  have hslots := (Bool.and_eq_true_iff.mp h).2
  split at hslots
  next => rfl
  next => cases hslots

lemma bumpStore_wellTyped {globals : List (String × Ty)} {slots : List ParamDesc}
    (h : fitsBump globals slots = true) : bumpStore.WellTyped globals slots where
  statics {name t} ht := by
    have hfits : name = "xs" ∧ (Ty.array 1 5 .integer).same t = true := by
      obtain ⟨before, after, rfl, -⟩ := List.lookup_eq_some_iff.mp ht
      simpa using List.all_eq_true.mp (Bool.and_eq_true_iff.mp h).1 (name, t) (by simp)
    obtain ⟨rfl, hsame⟩ := hfits
    cases t with
    | array low len elem =>
      simp only [Ty.same, Bool.and_eq_true, decide_eq_true_eq] at hsame
      obtain ⟨⟨rfl, rfl⟩, hsame⟩ := hsame
      obtain rfl := Ty.eq_of_same hsame rfl
      refine ⟨.ref 0, rfl, ?_⟩
      rw [HasTy]
      exact ⟨_, rfl, rfl, by simp [HasTy]⟩
    | _ => cases hsame
  slots {n d} hd := by
    have hslots := (Bool.and_eq_true_iff.mp h).2
    split at hslots
    next t =>
      obtain rfl := Ty.eq_of_same hslots rfl
      cases n with
      | zero =>
        cases hd
        exact ⟨.int 0, rfl, hasTy_int rfl 0⟩
      | succ n => cases hd
    next => cases hslots

lemma bumpStore_sound {globals : List (String × Ty)} {slots : List ParamDesc}
    (h : fitsBump globals slots = true) : bumpStore.Sound globals slots ∅ where
  wellTyped := bumpStore_wellTyped h
  shared :=
    { present := fun ha => ha.elim
      statics := fun {name v} hv => by
        simp only [Store.shared, bumpStore, Option.ite_none_right_eq_some, Option.some.injEq] at hv
        rw [← hv.2]
        exact ⟨id, _, rfl⟩
      objects := fun {a o} _ ho => by
        simp only [Store.shared, bumpStore, Option.ite_none_right_eq_some, Option.some.injEq] at ho
        rw [← ho.2]
        simp [Object.Clear, Value.Clear] }
  slots {n} _ v hv := by
    simp only [bumpStore, Option.ite_none_right_eq_some, Option.some.injEq] at hv
    rw [← hv.2]
    trivial

end

end PascalJvm
