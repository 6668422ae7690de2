import Mathlib.Tactic
import PascalJvm.Proofs.Checking

/-!
# Calls

A call is written with a name. The checker looks up the name among the routines that are visible
there, and the call of the typed tree has the signature that it finds. So every signature in a
checked body is that of a name which is called in the body as it is written.
-/
namespace PascalJvm

namespace Source

mutual

/-- The names that are called in an expression. A name by itself is a call of a function without
arguments, unless there is a variable or a constant of that name. -/
def Expr.called : Expr → List String
  | .name n => [n]
  | .call f args => f :: calledInAll args
  | .field e _ => e.calledInPlace
  | .index e i => e.calledInPlace ++ i.called
  | .unary _ x => x.called
  | .binary _ a b => a.called ++ b.called
  | .int _ | .real _ | .bool _ | .char _ | .text _ => []

/-- The names that are called to find a place; the variable itself is no call. -/
def Expr.calledInPlace : Expr → List String
  | .field e _ => e.calledInPlace
  | .index e i => e.calledInPlace ++ i.called
  | _ => []

def calledInAll : List Expr → List String
  | [] => []
  | e :: rest => e.called ++ calledInAll rest

end

def Selector.called : Selector → List String
  | .field _ => []
  | .index positions => calledInAll positions

def Access.called (a : Access) : List String := a.selectors.flatMap Selector.called

mutual

/-- The names that are called in a statement. -/
def Stmt.called : Stmt → List String
  | .compound body => calledInStmts body
  | .assign target value => target.called ++ value.called
  | .call routine args => routine :: calledInAll args
  | .ifThen cond yes no => cond.called ++ (yes.called ++ calledInOptional no)
  | .caseOf selector arms otherwise =>
      selector.called ++ (calledInArms arms ++ calledInOptional otherwise)
  | .whileDo cond body => cond.called ++ body.called
  | .repeatUntil body cond => calledInStmts body ++ cond.called
  | .forDo _ first last _ body => first.called ++ (last.called ++ body.called)
  | .read _ targets => targets.flatMap Access.called
  | .write _ args => args.flatMap fun a => a.expr.called

def calledInStmts : List Stmt → List String
  | [] => []
  | s :: rest => s.called ++ calledInStmts rest

def calledInOptional : Option Stmt → List String
  | none => []
  | some s => s.called

def calledInArms : List (List ConstExpr × Stmt) → List String
  | [] => []
  | (_, s) :: rest => s.called ++ calledInArms rest

end

lemma calledInPlace_subset (e : Expr) : e.calledInPlace ⊆ e.called := by
  cases e with
  | field e f => exact List.Subset.refl _
  | index e i => exact List.Subset.refl _
  | _ => exact List.nil_subset _

end Source

namespace Typed

mutual

/-- Every routine that is called in the expression satisfies `C`. -/
def Expr.Calls (C : Signature → Prop) : Expr → Prop
  | .read _ place _ => place.Calls C
  | .call _ callee args => C callee ∧ ArgsCalls C args
  | .unary _ _ x => x.Calls C
  | .binary _ _ a b => a.Calls C ∧ b.Calls C
  | .int _ _ | .real _ _ | .text _ _ => True

def Place.Calls (C : Signature → Prop) : Place → Prop
  | .root _ => True
  | .field base _ _ _ => base.Calls C
  | .element base index _ _ => base.Calls C ∧ index.Calls C

def ArgsCalls (C : Signature → Prop) : List Arg → Prop
  | [] => True
  | .value e :: args => e.Calls C ∧ ArgsCalls C args
  | .ref place _ :: args => place.Calls C ∧ ArgsCalls C args

end

mutual

/-- Every routine that is called in the statement satisfies `C`. -/
def Stmt.Calls (C : Signature → Prop) : Stmt → Prop
  | .empty => True
  | .compound body => StmtsCalls C body
  | .assign target value => target.place.Calls C ∧ value.Calls C
  | .ifThen cond yes no => cond.Calls C ∧ yes.Calls C ∧ OptionalCalls C no
  | .caseOf selector branches otherwise =>
      selector.Calls C ∧ ArmsCalls C branches ∧ OptionalCalls C otherwise
  | .repeatUntil body cond => StmtsCalls C body ∧ cond.Calls C
  | .whileDo cond body => cond.Calls C ∧ body.Calls C
  | .forDo counter first last _ body =>
      counter.place.Calls C ∧ first.Calls C ∧ last.Calls C ∧ body.Calls C
  | .procedureCall callee args | .functionCall callee args => C callee ∧ ArgsCalls C args
  | .write _ args => ∀ a ∈ args, ∀ e ∈ a.expr?, e.Calls C
  | .read _ targets => ∀ d ∈ targets, d.place.Calls C

def StmtsCalls (C : Signature → Prop) : List Stmt → Prop
  | [] => True
  | s :: rest => s.Calls C ∧ StmtsCalls C rest

def OptionalCalls (C : Signature → Prop) : Option Stmt → Prop
  | none => True
  | some s => s.Calls C

def ArmsCalls (C : Signature → Prop) : List (List Int32 × Stmt) → Prop
  | [] => True
  | (_, s) :: rest => s.Calls C ∧ ArmsCalls C rest

end

lemma Expr.Calls.retype {C : Signature → Prop} {e : Expr} (h : e.Calls C) (t : Ty) :
    (e.retype t).Calls C := by
  cases e <;> exact h

end Typed

namespace Check

open Typed

/-- The signature is that of a visible routine whose name satisfies `N`. -/
def Scope.Calls (s : Scope) (N : String → Prop) (sig : Signature) : Prop :=
  ∃ name, N name ∧ s.signature name = .ok sig

variable {s : Scope} {N : String → Prop}

lemma variableNamed_calls {name : String} {d : Designator} (h : s.variableNamed name = .ok d) :
    d.place.Calls (s.Calls N) := by
  unfold Scope.variableNamed at h
  split at h
  next =>
    cases h
    trivial
  next => cases h

lemma selectField_calls {d d' : Designator} {name : String} (hd : d.place.Calls (s.Calls N))
    (h : selectField d name = .ok d') : d'.place.Calls (s.Calls N) := by
  unfold selectField at h
  split at h
  next =>
    split at h
    next =>
      cases h
      exact hd
    next => cases h
  next => cases h

lemma selectElement_calls {d d' : Designator} {low : Int32} {elem : Ty} {index : Expr}
    (hd : d.place.Calls (s.Calls N)) (hindex : index.Calls (s.Calls N))
    (h : selectElement d low elem index = .ok d') : d'.place.Calls (s.Calls N) := by
  unfold selectElement at h
  split at h
  next =>
    cases h
    exact ⟨hd, hindex⟩
  next => cases h

lemma checkUnary_calls {op : UnOp} {x y : Expr} (hx : x.Calls (s.Calls N))
    (h : checkUnary op x = .ok y) : y.Calls (s.Calls N) := by
  cases op <;>
  · simp only [checkUnary, bind_eq_ok, pure_eq_ok] at h
    obtain ⟨-, -, rfl⟩ := h
    exact hx

lemma checkBinary_calls {op : BinOp} {a b y : Expr} (ha : a.Calls (s.Calls N))
    (hb : b.Calls (s.Calls N)) (h : checkBinary op a b = .ok y) : y.Calls (s.Calls N) := by
  simp only [checkBinary, bind_eq_ok, pure_eq_ok] at h
  obtain ⟨-, -, rfl⟩ := h
  exact ⟨ha, hb⟩

lemma applyBuiltin_calls {f : Constant.Builtin} {x y : Expr} (hx : x.Calls (s.Calls N))
    (h : applyBuiltin f x = .ok y) : y.Calls (s.Calls N) := by
  cases f <;>
  · simp only [applyBuiltin, bind_eq_ok, pure_eq_ok] at h
    obtain ⟨-, -, rfl⟩ := h
    exact hx.retype _

/-- The call has the signature that is visible under its name. -/
lemma functionCall_calls {name : String} {count : Nat}
    {arguments : List Passing → Checking (List Arg)} {e : Expr} (hname : N name)
    (hargs : ∀ params as, (arguments params).outcome = .ok as → ArgsCalls (s.Calls N) as)
    (h : (functionCall s name count arguments).outcome = .ok e) : e.Calls (s.Calls N) := by
  unfold functionCall at h
  obtain ⟨sig, hsig, h⟩ := Traced.bind_ok.mp h
  split at h
  next => cases h
  next =>
    obtain ⟨⟨⟩, -, h⟩ := Traced.bind_ok.mp h
    obtain ⟨as, has, h⟩ := Traced.bind_ok.mp h
    cases h
    exact ⟨⟨name, hname, hsig⟩, hargs _ as has⟩

lemma checkName_calls {name : String} {e : Expr} (hname : N name)
    (h : (checkName s name).outcome = .ok e) : e.Calls (s.Calls N) := by
  unfold checkName at h
  split at h
  next =>
    cases h
    trivial
  next c _ _ =>
    cases h
    cases c <;> trivial
  next =>
    split at h
    next =>
      refine functionCall_calls hname ?_ h
      intro params as has
      cases has
      trivial
    next => cases h

mutual

theorem expr_calls (expected : Option Ty) (e : Source.Expr) (hn : ∀ n ∈ e.called, N n) {t : Expr}
    (h : (expr s expected e).outcome = .ok t) : t.Calls (s.Calls N) := by
  match e with
  | .int i | .real x | .bool b | .char c =>
    cases h
    trivial
  | .text x =>
    cases h
    unfold literal
    split <;> trivial
  | .name n => exact checkName_calls (hn n List.mem_cons_self) h
  | .call f args =>
    rw [Source.Expr.called, List.forall_mem_cons] at hn
    simp only [expr] at h
    split at h
    next =>
      split at h
      next x =>
        obtain ⟨y, hy, h⟩ := Traced.bind_ok.mp h
        refine applyBuiltin_calls (expr_calls none x ?_ hy) h
        exact fun n hx => hn.2 n (List.mem_append_left _ hx)
      next => cases h
    next =>
      exact functionCall_calls hn.1 (fun params as => arguments_calls f 1 params args hn.2) h
  | .field e f =>
    simp only [expr] at h
    split at h
    next =>
      obtain ⟨d, hd, h⟩ := Traced.bind_ok.mp h
      obtain ⟨d', hd', h⟩ := Traced.bind_ok.mp h
      cases h
      exact selectField_calls (place_calls e hn hd) hd'
    next => cases h
  | .index e i =>
    rw [Source.Expr.called, List.forall_mem_append] at hn
    simp only [expr] at h
    split at h
    next =>
      obtain ⟨d, hd, h⟩ := Traced.bind_ok.mp h
      obtain ⟨⟨low, elem⟩, -, h⟩ := Traced.bind_ok.mp h
      obtain ⟨index, hindex, h⟩ := Traced.bind_ok.mp h
      obtain ⟨d', hd', h⟩ := Traced.bind_ok.mp h
      cases h
      exact selectElement_calls (place_calls e hn.1 hd) (expr_calls none i hn.2 hindex) hd'
    next => cases h
  | .unary op x =>
    simp only [expr] at h
    obtain ⟨y, hy, h⟩ := Traced.bind_ok.mp h
    exact checkUnary_calls (expr_calls none x hn hy) h
  | .binary op a b =>
    rw [Source.Expr.called, List.forall_mem_append] at hn
    simp only [expr] at h
    split at h
    next =>
      obtain ⟨right, hright, h⟩ := Traced.bind_ok.mp h
      obtain ⟨left, hleft, h⟩ := Traced.bind_ok.mp h
      exact checkBinary_calls (expr_calls _ a hn.1 hleft) (expr_calls _ b hn.2 hright) h
    next =>
      obtain ⟨left, hleft, h⟩ := Traced.bind_ok.mp h
      obtain ⟨right, hright, h⟩ := Traced.bind_ok.mp h
      exact checkBinary_calls (expr_calls _ a hn.1 hleft) (expr_calls _ b hn.2 hright) h

theorem place_calls (e : Source.Expr) (hn : ∀ n ∈ e.calledInPlace, N n) {d : Designator}
    (h : (place s e).outcome = .ok d) : d.place.Calls (s.Calls N) := by
  match e with
  | .name n => exact variableNamed_calls h
  | .field e f =>
    simp only [place] at h
    obtain ⟨d', hd', h⟩ := Traced.bind_ok.mp h
    exact selectField_calls (place_calls e hn hd') h
  | .index e i =>
    rw [Source.Expr.calledInPlace, List.forall_mem_append] at hn
    simp only [place] at h
    obtain ⟨d', hd', h⟩ := Traced.bind_ok.mp h
    obtain ⟨⟨low, elem⟩, -, h⟩ := Traced.bind_ok.mp h
    obtain ⟨index, hindex, h⟩ := Traced.bind_ok.mp h
    exact selectElement_calls (place_calls e hn.1 hd') (expr_calls none i hn.2 hindex) h
  | .int _ | .real _ | .bool _ | .char _ | .text _ | .call _ _ | .unary _ _ | .binary _ _ _ =>
    cases h

theorem arguments_calls (routine : String) (number : Nat) (params : List Passing)
    (args : List Source.Expr) (hn : ∀ n ∈ Source.calledInAll args, N n) {as : List Arg}
    (h : (arguments s routine number params args).outcome = .ok as) :
    ArgsCalls (s.Calls N) as := by
  match params, args with
  | [], _ | _ :: _, [] =>
    simp only [arguments] at h
    cases h
    trivial
  | p :: params, a :: args =>
    rw [Source.calledInAll, List.forall_mem_append] at hn
    have hrest : ∀ {rest}, (arguments s routine (number + 1) params args).outcome = .ok rest →
        ArgsCalls (s.Calls N) rest :=
      fun h => arguments_calls routine (number + 1) params args hn.2 h
    simp only [arguments] at h
    split at h
    next =>
      split at h
      next =>
        simp only [Traced.bind_ok, Traced.outcome_pure, Except.ok.injEq] at h
        obtain ⟨d, hd, -, -, -, -, -, rfl, rest, htail, rfl⟩ := h
        have hplace : ∀ n ∈ a.calledInPlace, N n :=
          fun n hx => hn.1 n (Source.calledInPlace_subset a hx)
        exact ⟨place_calls a hplace hd, hrest htail⟩
      next => simp at h
    next =>
      simp only [Traced.bind_ok, Traced.outcome_pure, Except.ok.injEq] at h
      obtain ⟨e, he, -, -, -, -, -, rfl, rest, htail, rfl⟩ := h
      exact ⟨expr_calls _ a hn.1 he, hrest htail⟩

end

lemma positions_calls {d d' : Designator} (hd : d.place.Calls (s.Calls N))
    {is : List Source.Expr} (hn : ∀ n ∈ Source.calledInAll is, N n)
    (h : (positions s d is).outcome = .ok d') : d'.place.Calls (s.Calls N) := by
  induction is generalizing d with
  | nil =>
    cases h
    exact hd
  | cons i rest ih =>
    rw [Source.calledInAll, List.forall_mem_append] at hn
    simp only [positions, Traced.bind_ok, lift_outcome] at h
    obtain ⟨⟨low, elem⟩, -, index, hindex, next, hnext, h⟩ := h
    exact ih (selectElement_calls hd (expr_calls none i hn.1 hindex) hnext) hn.2 h

lemma selectors_calls {d d' : Designator} (hd : d.place.Calls (s.Calls N))
    {sels : List Source.Selector} (hn : ∀ n ∈ sels.flatMap Source.Selector.called, N n)
    (h : (selectors s d sels).outcome = .ok d') : d'.place.Calls (s.Calls N) := by
  induction sels generalizing d with
  | nil =>
    cases h
    exact hd
  | cons sel rest ih =>
    rw [List.flatMap_cons, List.forall_mem_append] at hn
    cases sel with
    | field f =>
      simp only [selectors, Traced.bind_ok, lift_outcome] at h
      obtain ⟨next, hnext, h⟩ := h
      exact ih (selectField_calls hd hnext) hn.2 h
    | index is =>
      simp only [selectors, Traced.bind_ok] at h
      obtain ⟨next, hnext, h⟩ := h
      exact ih (positions_calls hd hn.1 hnext) hn.2 h

lemma access_calls {a : Source.Access} (hn : ∀ n ∈ a.called, N n) {d : Designator}
    (h : (access s a).outcome = .ok d) : d.place.Calls (s.Calls N) := by
  simp only [access, Traced.bind_ok, lift_outcome] at h
  obtain ⟨base, hbase, h⟩ := h
  exact selectors_calls (variableNamed_calls hbase) hn h

lemma condition_calls {spot : TypedSpot} {e : Source.Expr} (hn : ∀ n ∈ e.called, N n) {c : Expr}
    (h : (condition s spot e).outcome = .ok c) : c.Calls (s.Calls N) := by
  simp only [condition, Traced.bind_ok, Traced.outcome_pure, Except.ok.injEq] at h
  obtain ⟨x, hx, -, -, rfl⟩ := h
  exact expr_calls none e hn hx

lemma bound_calls {spot : TypedSpot} {ty : Ty} {e : Source.Expr} (hn : ∀ n ∈ e.called, N n)
    {x : Expr} (h : (bound s spot ty e).outcome = .ok x) : x.Calls (s.Calls N) := by
  simp only [bound, Traced.bind_ok, Traced.outcome_pure, Except.ok.injEq] at h
  obtain ⟨y, hy, -, -, rfl⟩ := h
  exact expr_calls _ e hn hy

lemma counterNamed_calls {name : String} {d : Designator} (h : counterNamed s name = .ok d) :
    d.place.Calls (s.Calls N) := by
  simp only [counterNamed, bind_eq_ok, pure_eq_ok] at h
  obtain ⟨v, hv, -, -, rfl⟩ := h
  exact variableNamed_calls hv

lemma writeArg_calls {a : Source.WriteArg} (hn : ∀ n ∈ a.expr.called, N n) {w : WriteArg}
    (h : (writeArg s a).outcome = .ok w) : ∀ e ∈ w.expr?, e.Calls (s.Calls N) := by
  unfold writeArg at h
  split at h
  next =>
    cases h
    simp [WriteArg.expr?]
  next =>
    simp only [checkWritten, Traced.bind_ok, lift_outcome, bind_eq_ok, pure_eq_ok] at h
    obtain ⟨e, he, -, -, -, -, rfl⟩ := h
    simpa [WriteArg.expr?] using expr_calls none _ hn he

lemma readTarget_calls {a : Source.Access} (hn : ∀ n ∈ a.called, N n) {d : Designator}
    (h : (readTarget s a).outcome = .ok d) : d.place.Calls (s.Calls N) := by
  simp only [readTarget, Traced.bind_ok, Traced.outcome_pure, Except.ok.injEq] at h
  obtain ⟨x, hx, -, -, rfl⟩ := h
  exact access_calls hn hx

lemma checkAssign_calls {target : Source.Access} {value : Source.Expr}
    (htarget : ∀ n ∈ target.called, N n) (hvalue : ∀ n ∈ value.called, N n) {x : Stmt}
    (h : (checkAssign s target value).outcome = .ok x) : x.Calls (s.Calls N) := by
  simp only [checkAssign, Traced.bind_ok, Traced.outcome_pure, Except.ok.injEq] at h
  obtain ⟨d, hd, -, -, e, he, -, -, rfl⟩ := h
  exact ⟨access_calls htarget hd, expr_calls _ value hvalue he⟩

lemma checkCall_calls {name : String} {args : List Source.Expr} (hname : N name)
    (hargs : ∀ n ∈ Source.calledInAll args, N n) {x : Stmt}
    (h : (checkCall s name args).outcome = .ok x) : x.Calls (s.Calls N) := by
  simp only [checkCall, Traced.bind_ok, lift_outcome, Traced.outcome_pure, Except.ok.injEq] at h
  obtain ⟨sig, hsig, -, -, as, has, rfl⟩ := h
  have hcall : s.Calls N sig ∧ ArgsCalls (s.Calls N) as :=
    ⟨⟨name, hname, hsig⟩, arguments_calls name 1 sig.params args hargs has⟩
  split <;> exact hcall

/-- The elements of a list, each checked by itself. -/
lemma mapM_calls {α β : Type} {f : α → Except CheckError β} {names : α → List String}
    {P : β → Prop} (hf : ∀ a b, (∀ n ∈ names a, N n) → f a = .ok b → P b) {xs : List α}
    (hn : ∀ n ∈ xs.flatMap names, N n) {ys : List β} (h : xs.mapM f = .ok ys) : ∀ y ∈ ys, P y := by
  induction xs generalizing ys with
  | nil =>
    simp only [List.mapM_nil, pure_eq_ok] at h
    simp [← h]
  | cons x xs ih =>
    rw [List.flatMap_cons, List.forall_mem_append] at hn
    simp only [List.mapM_cons, bind_eq_ok, pure_eq_ok] at h
    obtain ⟨y, hy, rest, hrest, rfl⟩ := h
    exact List.forall_mem_cons.mpr ⟨hf x y hn.1 hy, ih hn.2 hrest⟩

mutual

theorem stmt_calls (x : Source.Stmt) (hn : ∀ n ∈ x.called, N n) {y : Stmt}
    (h : (stmt s x).outcome = .ok y) : y.Calls (s.Calls N) := by
  match x with
  | .compound body =>
    simp only [stmt, Traced.bind_ok, Traced.outcome_pure, Except.ok.injEq] at h
    obtain ⟨checked, hbody, rfl⟩ := h
    exact stmts_calls body hn hbody
  | .assign target value =>
    rw [Source.Stmt.called, List.forall_mem_append] at hn
    exact checkAssign_calls hn.1 hn.2 h
  | .call routine args =>
    rw [Source.Stmt.called, List.forall_mem_cons] at hn
    exact checkCall_calls hn.1 hn.2 h
  | .ifThen cond yes no =>
    simp only [Source.Stmt.called, List.forall_mem_append] at hn
    simp only [stmt, Traced.bind_ok, Traced.outcome_pure, Except.ok.injEq] at h
    obtain ⟨c, hc, n, hno, y, hy, rfl⟩ := h
    exact ⟨condition_calls hn.1 hc, stmt_calls yes hn.2.1 hy, optional_calls no hn.2.2 hno⟩
  | .caseOf selector branches otherwise =>
    simp only [Source.Stmt.called, List.forall_mem_append] at hn
    simp only [stmt, Traced.bind_ok, Traced.outcome_pure, Except.ok.injEq] at h
    obtain ⟨e, he, -, -, checked, harms, o, ho, rfl⟩ := h
    exact ⟨expr_calls none selector hn.1 he, arms_calls e.ty branches hn.2.1 harms,
      optional_calls otherwise hn.2.2 ho⟩
  | .whileDo cond body =>
    rw [Source.Stmt.called, List.forall_mem_append] at hn
    simp only [stmt, Traced.bind_ok, Traced.outcome_pure, Except.ok.injEq] at h
    obtain ⟨c, hc, b, hb, rfl⟩ := h
    exact ⟨condition_calls hn.1 hc, stmt_calls body hn.2 hb⟩
  | .repeatUntil body cond =>
    rw [Source.Stmt.called, List.forall_mem_append] at hn
    simp only [stmt, Traced.bind_ok, Traced.outcome_pure, Except.ok.injEq] at h
    obtain ⟨b, hb, c, hc, rfl⟩ := h
    exact ⟨stmts_calls body hn.1 hb, condition_calls hn.2 hc⟩
  | .forDo counter first last down body =>
    simp only [Source.Stmt.called, List.forall_mem_append] at hn
    simp only [stmt, Traced.bind_ok, lift_outcome, Traced.outcome_pure, Except.ok.injEq] at h
    obtain ⟨d, hd, a, ha, b, hb, y, hy, rfl⟩ := h
    exact ⟨counterNamed_calls hd, bound_calls hn.1 ha, bound_calls hn.2.1 hb,
      stmt_calls body hn.2.2 hy⟩
  | .read line targets =>
    simp only [stmt, Traced.bind_ok, Traced.outcome_mapM, Traced.outcome_pure,
      Except.ok.injEq] at h
    obtain ⟨ds, hds, rfl⟩ := h
    exact mapM_calls (fun _ _ ha hd => readTarget_calls ha hd) hn hds
  | .write line args =>
    simp only [stmt, Traced.bind_ok, Traced.outcome_mapM, Traced.outcome_pure,
      Except.ok.injEq] at h
    obtain ⟨ws, hws, rfl⟩ := h
    exact mapM_calls (fun _ _ ha hw => writeArg_calls ha hw) hn hws

theorem stmts_calls (xs : List Source.Stmt) (hn : ∀ n ∈ Source.calledInStmts xs, N n)
    {ys : List Stmt} (h : (stmts s xs).outcome = .ok ys) : StmtsCalls (s.Calls N) ys := by
  match xs with
  | [] =>
    cases h
    trivial
  | x :: rest =>
    rw [Source.calledInStmts, List.forall_mem_append] at hn
    simp only [stmts, Traced.bind_ok, Traced.outcome_pure, Except.ok.injEq] at h
    obtain ⟨y, hy, ys, hys, rfl⟩ := h
    exact ⟨stmt_calls x hn.1 hy, stmts_calls rest hn.2 hys⟩

theorem optional_calls (x : Option Source.Stmt) (hn : ∀ n ∈ Source.calledInOptional x, N n)
    {y : Option Stmt} (h : (optional s x).outcome = .ok y) : OptionalCalls (s.Calls N) y := by
  match x with
  | none =>
    cases h
    trivial
  | some x =>
    simp only [optional, Traced.bind_ok, Traced.outcome_pure, Except.ok.injEq] at h
    obtain ⟨y, hy, rfl⟩ := h
    exact stmt_calls x hn hy

theorem arms_calls (selector : Ty) (xs : List (List Source.ConstExpr × Source.Stmt))
    (hn : ∀ n ∈ Source.calledInArms xs, N n) {ys : List (List Int32 × Stmt)}
    (h : (arms s selector xs).outcome = .ok ys) : ArmsCalls (s.Calls N) ys := by
  match xs with
  | [] =>
    cases h
    trivial
  | (values, x) :: rest =>
    rw [Source.calledInArms, List.forall_mem_append] at hn
    simp only [arms, Traced.bind_ok, Traced.outcome_pure, Except.ok.injEq] at h
    obtain ⟨constants, -, y, hy, ys, hys, rfl⟩ := h
    exact ⟨stmt_calls x hn.1 hy, arms_calls selector rest hn.2 hys⟩

end

end Check
end PascalJvm
