import Mathlib.Tactic
import PascalJvm.Check.Program
import PascalJvm.Proofs.CaseBranches
import PascalJvm.Proofs.Declarations
import PascalJvm.Proofs.Operators

/-!
# Checked trees are well-typed

One lemma for each function of the checker: what it returns is well-typed, for the variables
that the scope knows.
-/
namespace PascalJvm.Check

open Typed

/-- The variables that a scope knows are among `Γ`. -/
def Scope.Fits (s : Scope) (Γ : Variables) : Prop :=
  ∀ name v, s.symbol? name = some v → v.Declared Γ

@[simp] theorem lift_outcome {α : Type} (x : Except CheckError α) : (lift x).outcome = x := rfl

section

variable {s : Scope} {Γ : Variables}

lemma designator_wellTyped {d : Designator} (h : d.WellTyped Γ) : d.toExpr.WellTyped Γ :=
  ⟨h.place, h.ty_eq, .refl _⟩

lemma eq_ofSymbol_of_variableNamed {name : String} {d : Designator}
    (h : s.variableNamed name = .ok d) : ∃ v, d = .ofSymbol v := by
  unfold Scope.variableNamed at h
  split at h
  next v hv =>
    cases h
    exact ⟨v, rfl⟩
  next => cases h

lemma variableNamed_wellTyped (hs : s.Fits Γ) {name : String} {d : Designator}
    (h : s.variableNamed name = .ok d) : d.WellTyped Γ := by
  unfold Scope.variableNamed at h
  split at h
  next v hv =>
    cases h
    exact ⟨hs name v hv, rfl⟩
  next => cases h

lemma selectField_wellTyped {d d' : Designator} (hd : d.WellTyped Γ) {name : String}
    (h : selectField d name = .ok d') : d'.WellTyped Γ := by
  unfold selectField at h
  split at h
  next record fields hty =>
    split at h
    next t ht =>
      cases h
      exact ⟨⟨hd.place, fields, by rw [← hd.ty_eq, hty], ht⟩, rfl⟩
    next => cases h
  next => cases h

lemma arrayParts_eq_ok {d : Designator} {low : Int32} {elem : Ty}
    (h : arrayParts d = .ok (low, elem)) : ∃ len, d.ty = .array low len elem := by
  unfold arrayParts at h
  split at h
  next low' len elem' hty =>
    cases h
    exact ⟨len, hty⟩
  next => cases h

lemma selectElement_wellTyped {d d' : Designator} (hd : d.WellTyped Γ) {low : Int32} {elem : Ty}
    (hparts : arrayParts d = .ok (low, elem)) {index : Expr} (hindex : index.WellTyped Γ)
    (h : selectElement d low elem index = .ok d') : d'.WellTyped Γ := by
  obtain ⟨len, hty⟩ := arrayParts_eq_ok hparts
  unfold selectElement at h
  split at h
  next hord =>
    cases h
    exact ⟨⟨hd.place, hindex, hord, len, by rw [← hd.ty_eq, hty]⟩, rfl⟩
  next => cases h

lemma constantExpr_wellTyped (c : Constant) : (constantExpr c).WellTyped Γ := by
  cases c <;> rfl

lemma literal_wellTyped (expected : Option Ty) (t : String) : (literal expected t).WellTyped Γ := by
  unfold literal
  split <;> rfl

lemma checkUnary_wellTyped {op : UnOp} {x y : Expr} (hx : x.WellTyped Γ)
    (h : checkUnary op x = .ok y) : y.WellTyped Γ := by
  cases op with
  | neg =>
    simp only [checkUnary, bind_eq_ok, pure_eq_ok, require_eq_ok] at h
    obtain ⟨-, hnum, rfl⟩ := h
    exact ⟨hx, hnum, .refl _⟩
  | not =>
    simp only [checkUnary, bind_eq_ok, pure_eq_ok, require_eq_ok] at h
    obtain ⟨-, hbool, rfl⟩ := h
    exact ⟨hx, Ty.eq_basic_of_is hbool, .refl _⟩

lemma checkBinary_wellTyped {op : BinOp} {a b y : Expr} (ha : a.WellTyped Γ)
    (hb : b.WellTyped Γ) (h : checkBinary op a b = .ok y) : y.WellTyped Γ := by
  simp only [checkBinary, bind_eq_ok, pure_eq_ok] at h
  obtain ⟨r, hr, rfl⟩ := h
  exact ⟨ha, hb, r, hr, .refl _⟩

lemma applyBuiltin_wellTyped {f : Constant.Builtin} {x y : Expr} (hx : x.WellTyped Γ)
    (h : applyBuiltin f x = .ok y) : y.WellTyped Γ := by
  cases f with
  | ord =>
    simp only [applyBuiltin, bind_eq_ok, pure_eq_ok, require_eq_ok] at h
    obtain ⟨-, hord, rfl⟩ := h
    exact hx.retype hord rfl
  | chr =>
    simp only [applyBuiltin, bind_eq_ok, pure_eq_ok, require_eq_ok] at h
    obtain ⟨-, hint, rfl⟩ := h
    exact hx.retype (by rw [Ty.eq_basic_of_is hint]; rfl) rfl

/-- A call of a function is well-typed when its arguments are. -/
lemma functionCall_wellTyped {name : String} {count : Nat}
    {arguments : List Passing → Checking (List Arg)} {e : Expr}
    (hargs : ∀ params as, params.length = count → (arguments params).outcome = .ok as →
      ArgsWellTyped Γ params as)
    (h : (functionCall s name count arguments).outcome = .ok e) : e.WellTyped Γ := by
  unfold functionCall at h
  obtain ⟨sig, -, h⟩ := Traced.bind_ok.mp h
  split at h
  next => cases h
  next r hr =>
    obtain ⟨⟨⟩, hcount, h⟩ := Traced.bind_ok.mp h
    obtain ⟨as, has, h⟩ := Traced.bind_ok.mp h
    cases h
    simp only [lift_outcome, checkCount, require_eq_ok, decide_eq_true_eq] at hcount
    exact ⟨⟨r, hr, .refl _⟩, hargs _ as hcount has⟩

lemma checkName_wellTyped (hs : s.Fits Γ) {name : String} {e : Expr}
    (h : (checkName s name).outcome = .ok e) : e.WellTyped Γ := by
  unfold checkName at h
  cases hv : s.symbol? name with
  | some v =>
    rw [hv] at h
    cases h
    exact designator_wellTyped ⟨hs name v hv, rfl⟩
  | none =>
    cases hc : s.env.consts.lookup name with
    | some c =>
      rw [hv, hc] at h
      cases h
      exact constantExpr_wellTyped c
    | none =>
      simp only [hv, hc] at h
      split at h
      next =>
        refine functionCall_wellTyped ?_ h
        intro params as hlen has
        cases has
        rw [List.length_eq_zero_iff.mp hlen]
        trivial
      next => cases h

mutual

theorem expr_wellTyped (hs : s.Fits Γ) (expected : Option Ty) (e : Source.Expr) {t : Expr}
    (h : (expr s expected e).outcome = .ok t) : t.WellTyped Γ := by
  match e with
  | .int i | .real x | .bool b | .char c =>
    cases h
    rfl
  | .text x =>
    cases h
    exact literal_wellTyped expected x
  | .name n => exact checkName_wellTyped hs h
  | .call f args =>
    simp only [expr] at h
    split at h
    next b hb =>
      split at h
      next x =>
        obtain ⟨y, hy, h⟩ := Traced.bind_ok.mp h
        exact applyBuiltin_wellTyped (expr_wellTyped hs none x hy) h
      next => cases h
    next =>
      exact functionCall_wellTyped (fun params as => arguments_wellTyped hs f 1 params args) h
  | .field e f =>
    simp only [expr] at h
    split at h
    next =>
      obtain ⟨d, hd, h⟩ := Traced.bind_ok.mp h
      obtain ⟨d', hd', h⟩ := Traced.bind_ok.mp h
      cases h
      exact designator_wellTyped (selectField_wellTyped (place_wellTyped hs e hd) hd')
    next => cases h
  | .index e i =>
    simp only [expr] at h
    split at h
    next =>
      obtain ⟨d, hd, h⟩ := Traced.bind_ok.mp h
      obtain ⟨⟨low, elem⟩, hparts, h⟩ := Traced.bind_ok.mp h
      obtain ⟨index, hindex, h⟩ := Traced.bind_ok.mp h
      obtain ⟨d', hd', h⟩ := Traced.bind_ok.mp h
      cases h
      exact designator_wellTyped (selectElement_wellTyped (place_wellTyped hs e hd) hparts
        (expr_wellTyped hs none i hindex) hd')
    next => cases h
  | .unary op x =>
    simp only [expr] at h
    obtain ⟨y, hy, h⟩ := Traced.bind_ok.mp h
    exact checkUnary_wellTyped (expr_wellTyped hs none x hy) h
  | .binary op a b =>
    simp only [expr] at h
    split at h
    next =>
      obtain ⟨right, hright, h⟩ := Traced.bind_ok.mp h
      obtain ⟨left, hleft, h⟩ := Traced.bind_ok.mp h
      exact checkBinary_wellTyped (expr_wellTyped hs _ a hleft) (expr_wellTyped hs _ b hright) h
    next =>
      obtain ⟨left, hleft, h⟩ := Traced.bind_ok.mp h
      obtain ⟨right, hright, h⟩ := Traced.bind_ok.mp h
      exact checkBinary_wellTyped (expr_wellTyped hs _ a hleft) (expr_wellTyped hs _ b hright) h

theorem place_wellTyped (hs : s.Fits Γ) (e : Source.Expr) {d : Designator}
    (h : (place s e).outcome = .ok d) : d.WellTyped Γ := by
  match e with
  | .name n => exact variableNamed_wellTyped hs h
  | .field e f =>
    simp only [place] at h
    obtain ⟨d', hd', h⟩ := Traced.bind_ok.mp h
    exact selectField_wellTyped (place_wellTyped hs e hd') h
  | .index e i =>
    simp only [place] at h
    obtain ⟨d', hd', h⟩ := Traced.bind_ok.mp h
    obtain ⟨⟨low, elem⟩, hparts, h⟩ := Traced.bind_ok.mp h
    obtain ⟨index, hindex, h⟩ := Traced.bind_ok.mp h
    exact selectElement_wellTyped (place_wellTyped hs e hd') hparts
      (expr_wellTyped hs none i hindex) h
  | .int _ | .real _ | .bool _ | .char _ | .text _ | .call _ _ | .unary _ _ | .binary _ _ _ =>
    cases h

theorem arguments_wellTyped (hs : s.Fits Γ) (routine : String) (number : Nat)
    (params : List Passing) (args : List Source.Expr) {as : List Arg}
    (hlen : params.length = args.length)
    (h : (arguments s routine number params args).outcome = .ok as) :
    ArgsWellTyped Γ params as := by
  match params, args with
  | [], [] =>
    cases h
    trivial
  | [], _ :: _ | _ :: _, [] => simp at hlen
  | p :: params, a :: args =>
    have hrest : ∀ {rest}, (arguments s routine (number + 1) params args).outcome = .ok rest →
        ArgsWellTyped Γ params rest :=
      fun h => arguments_wellTyped hs routine (number + 1) params args (by simpa using hlen) h
    simp only [arguments] at h
    split at h
    next href =>
      split at h
      next =>
        simp only [Traced.bind_ok, lift_outcome, require_eq_ok, Traced.outcome_report,
          Traced.outcome_pure, Except.ok.injEq] at h
        obtain ⟨d, hd, -, hsame, -, -, -, rfl, rest, htail, rfl⟩ := h
        have hwt := place_wellTyped hs a hd
        exact ⟨href, hwt.place, hwt.ty_eq, hsame, hrest htail⟩
      next => simp at h
    next hval =>
      simp only [Traced.bind_ok, lift_outcome, require_eq_ok, Traced.outcome_report,
        Traced.outcome_pure, Except.ok.injEq] at h
      obtain ⟨e, he, -, haccepts, -, -, -, rfl, rest, htail, rfl⟩ := h
      exact ⟨by simpa using hval, expr_wellTyped hs _ a he, haccepts, hrest htail⟩

end

lemma positions_wellTyped (hs : s.Fits Γ) {d d' : Designator} (hd : d.WellTyped Γ)
    {is : List Source.Expr} (h : (positions s d is).outcome = .ok d') : d'.WellTyped Γ := by
  induction is generalizing d with
  | nil =>
    cases h
    exact hd
  | cons i rest ih =>
    simp only [positions, Traced.bind_ok, lift_outcome] at h
    obtain ⟨⟨low, elem⟩, hparts, index, hindex, next, hnext, h⟩ := h
    exact ih (selectElement_wellTyped hd hparts (expr_wellTyped hs none i hindex) hnext) h

lemma selectors_wellTyped (hs : s.Fits Γ) {d d' : Designator} (hd : d.WellTyped Γ)
    {sels : List Source.Selector} (h : (selectors s d sels).outcome = .ok d') :
    d'.WellTyped Γ := by
  induction sels generalizing d with
  | nil =>
    cases h
    exact hd
  | cons sel rest ih =>
    cases sel with
    | field f =>
      simp only [selectors, Traced.bind_ok, lift_outcome] at h
      obtain ⟨next, hnext, h⟩ := h
      exact ih (selectField_wellTyped hd hnext) h
    | index is =>
      simp only [selectors, Traced.bind_ok] at h
      obtain ⟨next, hnext, h⟩ := h
      exact ih (positions_wellTyped hs hd hnext) h

lemma access_wellTyped (hs : s.Fits Γ) {a : Source.Access} {d : Designator}
    (h : (access s a).outcome = .ok d) : d.WellTyped Γ := by
  simp only [access, Traced.bind_ok, lift_outcome] at h
  obtain ⟨base, hbase, h⟩ := h
  exact selectors_wellTyped hs (variableNamed_wellTyped hs hbase) h

lemma checkAssign_wellTyped (hs : s.Fits Γ) {target : Source.Access} {value : Source.Expr}
    {x : Stmt} (h : (checkAssign s target value).outcome = .ok x) : x.WellTyped Γ := by
  simp only [checkAssign, assignTarget, Traced.bind_ok, lift_outcome, require_eq_ok,
    Traced.outcome_pure, Except.ok.injEq] at h
  obtain ⟨d, hd, -, hscalar, e, he, -, haccepts, rfl⟩ := h
  exact ⟨access_wellTyped hs hd, expr_wellTyped hs _ value he, by simpa using hscalar, haccepts⟩

lemma condition_wellTyped (hs : s.Fits Γ) {spot : TypedSpot} {e : Source.Expr} {c : Expr}
    (h : (condition s spot e).outcome = .ok c) : c.Condition Γ := by
  simp only [condition, Traced.bind_ok, lift_outcome, require_eq_ok, Traced.outcome_pure,
    Except.ok.injEq] at h
  obtain ⟨x, hx, -, hbool, rfl⟩ := h
  exact ⟨expr_wellTyped hs none e hx, Ty.eq_basic_of_is hbool⟩

lemma bound_wellTyped (hs : s.Fits Γ) {spot : TypedSpot} {ty : Ty} {e : Source.Expr} {x : Expr}
    (h : (bound s spot ty e).outcome = .ok x) : x.WellTyped Γ ∧ ty.same x.ty = true := by
  simp only [bound, Traced.bind_ok, lift_outcome, require_eq_ok, Traced.outcome_pure,
    Except.ok.injEq] at h
  obtain ⟨y, hy, -, hsame, rfl⟩ := h
  exact ⟨expr_wellTyped hs _ e hy, hsame⟩

lemma counterNamed_wellTyped (hs : s.Fits Γ) {name : String} {d : Designator}
    (h : counterNamed s name = .ok d) : d.WellTyped Γ ∧ d.ty.isOrdinal = true ∧
      ∃ v, d = .ofSymbol v := by
  simp only [counterNamed, bind_eq_ok, require_eq_ok, pure_eq_ok] at h
  obtain ⟨v, hv, -, hord, rfl⟩ := h
  exact ⟨variableNamed_wellTyped hs hv, hord, eq_ofSymbol_of_variableNamed hv⟩

lemma writeArg_wellTyped (hs : s.Fits Γ) {a : Source.WriteArg} {w : WriteArg}
    (h : (writeArg s a).outcome = .ok w) : w.WellTyped Γ := by
  unfold writeArg at h
  split at h
  next =>
    cases h
    trivial
  next =>
    simp only [checkWritten, Traced.bind_ok, lift_outcome, bind_eq_ok, require_eq_ok,
      pure_eq_ok] at h
    obtain ⟨e, he, _, hscalar, _, hwidth, rfl⟩ := h
    refine ⟨expr_wellTyped hs none _ he, by simpa using hscalar, fun w hw => ?_⟩
    rw [Option.mem_def.mp hw] at hwidth
    simpa only [checkWidth, bind_eq_ok, require_eq_ok, decide_eq_true_eq, exists_const] using hwidth

lemma readTarget_wellTyped (hs : s.Fits Γ) {a : Source.Access} {d : Designator}
    (h : (readTarget s a).outcome = .ok d) : d.WellTyped Γ ∧ d.ty.isBasic = true := by
  simp only [readTarget, Traced.bind_ok, lift_outcome, require_eq_ok, Traced.outcome_pure,
    Except.ok.injEq] at h
  obtain ⟨x, hx, -, hbasic, rfl⟩ := h
  exact ⟨access_wellTyped hs hx, hbasic⟩

lemma checkCall_wellTyped (hs : s.Fits Γ) {name : String} {args : List Source.Expr} {x : Stmt}
    (h : (checkCall s name args).outcome = .ok x) : x.WellTyped Γ := by
  simp only [checkCall, checkCount, Traced.bind_ok, lift_outcome, require_eq_ok,
    decide_eq_true_eq, Traced.outcome_pure, Except.ok.injEq] at h
  obtain ⟨sig, -, -, hcount, as, has, rfl⟩ := h
  have hargs := arguments_wellTyped hs name 1 sig.params args hcount has
  split
  next hsome => exact ⟨hsome, hargs⟩
  next hnone => exact ⟨by simpa using hnone, hargs⟩

/-- The constants of a branch stay as many as they are written. -/
lemma constants_ne_nil {selector : Ty} {values : List Source.ConstExpr} {constants : List Int32}
    (h : values.mapM (caseConstant s selector) = .ok constants) (hne : values ≠ []) :
    constants ≠ [] := by
  intro hnil
  have hlen := length_of_mapM_eq_ok h
  rw [hnil] at hlen
  exact hne (List.length_eq_zero_iff.mp hlen.symm)

mutual

theorem stmt_wellTyped (hs : s.Fits Γ) (x : Source.Stmt) (hx : x.Branched) {y : Stmt}
    (h : (stmt s x).outcome = .ok y) : y.WellTyped Γ := by
  match x with
  | .compound body =>
    simp only [stmt, Traced.bind_ok, Traced.outcome_pure, Except.ok.injEq] at h
    obtain ⟨checked, hbody, rfl⟩ := h
    exact stmts_wellTyped hs body hx hbody
  | .assign target value => exact checkAssign_wellTyped hs h
  | .call routine args => exact checkCall_wellTyped hs h
  | .ifThen cond yes no =>
    simp only [stmt, Traced.bind_ok, Traced.outcome_pure, Except.ok.injEq] at h
    obtain ⟨c, hc, n, hn, y, hy, rfl⟩ := h
    exact ⟨condition_wellTyped hs hc, stmt_wellTyped hs yes hx.1 hy,
      optional_wellTyped hs no hx.2 hn⟩
  | .caseOf selector branches otherwise =>
    simp only [stmt, Traced.bind_ok, lift_outcome, require_eq_ok, Traced.outcome_pure,
      Except.ok.injEq] at h
    obtain ⟨e, he, -, hord, checked, harms, o, ho, rfl⟩ := h
    exact ⟨expr_wellTyped hs none selector he, hord, arms_wellTyped hs e.ty branches hx.1 harms,
      optional_wellTyped hs otherwise hx.2 ho⟩
  | .whileDo cond body =>
    simp only [stmt, Traced.bind_ok, Traced.outcome_pure, Except.ok.injEq] at h
    obtain ⟨c, hc, b, hb, rfl⟩ := h
    exact ⟨condition_wellTyped hs hc, stmt_wellTyped hs body hx hb⟩
  | .repeatUntil body cond =>
    simp only [stmt, Traced.bind_ok, Traced.outcome_pure, Except.ok.injEq] at h
    obtain ⟨b, hb, c, hc, rfl⟩ := h
    exact ⟨stmts_wellTyped hs body hx hb, condition_wellTyped hs hc⟩
  | .forDo counter first last down body =>
    simp only [stmt, Traced.bind_ok, lift_outcome, Traced.outcome_pure, Except.ok.injEq] at h
    obtain ⟨d, hd, a, ha, b, hb, y, hy, rfl⟩ := h
    obtain ⟨hd, hord, hv⟩ := counterNamed_wellTyped hs hd
    obtain ⟨ha, hsameA⟩ := bound_wellTyped hs ha
    obtain ⟨hb, hsameB⟩ := bound_wellTyped hs hb
    exact ⟨hd, hord, ha, hsameA, hb, hsameB, stmt_wellTyped hs body hx hy, hv⟩
  | .read line targets =>
    simp only [stmt, Traced.bind_ok, Traced.outcome_mapM, Traced.outcome_pure,
      Except.ok.injEq] at h
    obtain ⟨ds, hds, rfl⟩ := h
    exact forall_of_mapM_eq_ok (fun _ _ hd => readTarget_wellTyped hs hd) hds
  | .write line args =>
    simp only [stmt, Traced.bind_ok, Traced.outcome_mapM, Traced.outcome_pure,
      Except.ok.injEq] at h
    obtain ⟨ws, hws, rfl⟩ := h
    exact forall_of_mapM_eq_ok (fun _ _ hw => writeArg_wellTyped hs hw) hws

theorem stmts_wellTyped (hs : s.Fits Γ) (xs : List Source.Stmt) (hx : Source.StmtsBranched xs)
    {ys : List Stmt} (h : (stmts s xs).outcome = .ok ys) : StmtsWellTyped Γ ys := by
  match xs with
  | [] =>
    cases h
    trivial
  | x :: rest =>
    simp only [stmts, Traced.bind_ok, Traced.outcome_pure, Except.ok.injEq] at h
    obtain ⟨y, hy, ys, hys, rfl⟩ := h
    exact ⟨stmt_wellTyped hs x hx.1 hy, stmts_wellTyped hs rest hx.2 hys⟩

theorem optional_wellTyped (hs : s.Fits Γ) (x : Option Source.Stmt)
    (hx : Source.OptionalBranched x) {y : Option Stmt} (h : (optional s x).outcome = .ok y) :
    OptionalWellTyped Γ y := by
  match x with
  | none =>
    cases h
    trivial
  | some x =>
    simp only [optional, Traced.bind_ok, Traced.outcome_pure, Except.ok.injEq] at h
    obtain ⟨y, hy, rfl⟩ := h
    exact stmt_wellTyped hs x hx hy

theorem arms_wellTyped (hs : s.Fits Γ) (selector : Ty)
    (xs : List (List Source.ConstExpr × Source.Stmt)) (hx : Source.ArmsBranched xs)
    {ys : List (List Int32 × Stmt)} (h : (arms s selector xs).outcome = .ok ys) :
    ArmsWellTyped Γ ys := by
  match xs with
  | [] =>
    cases h
    trivial
  | (values, x) :: rest =>
    simp only [arms, Traced.bind_ok, lift_outcome, Traced.outcome_pure, Except.ok.injEq] at h
    obtain ⟨constants, hconstants, y, hy, ys, hys, rfl⟩ := h
    exact ⟨constants_ne_nil hconstants hx.1, stmt_wellTyped hs x hx.2.1 hy,
      arms_wellTyped hs selector rest hx.2.2 hys⟩

end

end

open Jvm (ParamDesc)

/-- How a variable in slot `n` is kept. -/
def storageIn : ParamDesc → Nat → Storage
  | .value _ => .slot
  | .cell _ => .cell

/-- How the slot of a symbol is used. -/
def slotOf (v : Symbol) : ParamDesc :=
  match v.storage with
  | .cell _ => .cell v.ty
  | _ => .value v.ty

namespace Frame

/-- How the slots of a routine are used so far. -/
def layout (f : Frame) : List ParamDesc := f.symbols.map fun v => slotOf v.2

/-- The variables are in the slots from 0 on, in order, and no aggregate is in a cell. -/
structure Laid (f : Frame) : Prop where
  nextSlot : f.nextSlot = f.symbols.length
  storage {i : Nat} {v : String × Symbol} (hi : f.symbols[i]? = some v) :
    v.2.storage = storageIn (slotOf v.2) i
  scalar {t : Ty} (ht : .cell t ∈ f.layout) : t.isAggregate = false

variable {env : Environment} {routine : String} {f f' : Frame}

lemma Laid.empty : Frame.empty.Laid := by
  constructor <;> simp [Frame.empty, Frame.layout]

lemma declare_spec {name : String} {storage : Nat → Storage} {ty : Ty} {v : Local}
    {d : ParamDesc} (hf : f.Laid) (hs : storage = storageIn d) (hty : d.ty = ty)
    (hd : ∀ t, d = .cell t → t.isAggregate = false)
    (h : declare env routine f name storage ty = .ok (v, f')) :
    f'.Laid ∧ f'.layout = f.layout ++ [d] ∧ v.slot = f.layout.length ∧ v.ty = ty := by
  simp only [declare, bind_eq_ok, require_eq_ok, pure_eq_ok, Prod.mk.injEq] at h
  obtain ⟨-, -, rfl, rfl⟩ := h
  have hdesc : slotOf ⟨name, storage f.nextSlot, ty⟩ = d := by
    subst hs hty
    cases d <;> rfl
  have hlayout : f.layout.length = f.nextSlot := by rw [hf.nextSlot, layout, List.length_map]
  refine ⟨⟨?_, ?_, ?_⟩, ?_, ?_, rfl⟩
  · simp [hf.nextSlot]
  · intro i w hi
    rcases Nat.lt_trichotomy i f.symbols.length with hlt | rfl | hgt
    · rw [List.getElem?_append_left hlt] at hi
      exact hf.storage hi
    · simp only [List.getElem?_concat_length, Option.some.injEq] at hi
      subst hi
      rw [hdesc, ← hs, hf.nextSlot]
    · rw [List.getElem?_eq_none (by simp; omega)] at hi
      cases hi
  · intro t ht
    simp only [layout, List.map_append, List.map_cons, List.map_nil, hdesc, List.mem_append,
      List.mem_singleton] at ht
    rcases ht with ht | ht
    · exact hf.scalar ht
    · exact hd t ht.symm
  · simp [layout, hdesc]
  · exact hlayout.symm

lemma declareParams_spec {ps : List (Source.Param × Passing)} {vs : List Local} (hf : f.Laid)
    (h : declareParams env routine f ps = .ok (vs, f')) :
    f'.Laid ∧ f'.layout = f.layout ++ ps.map fun p => .ofPassing p.2 := by
  induction ps generalizing f vs with
  | nil =>
    cases h
    exact ⟨hf, by simp⟩
  | cons p ps ih =>
    obtain ⟨param, passing⟩ := p
    simp only [declareParams, bind_eq_ok, pure_eq_ok, Prod.mk.injEq] at h
    obtain ⟨⟨v, next⟩, hnext, ⟨ws, last⟩, hlast, rfl, rfl⟩ := h
    obtain ⟨hlaid, hlayout, -⟩ := declare_spec (d := .ofPassing passing) hf
      (by unfold ParamDesc.ofPassing; split <;> rfl) (ParamDesc.ty_ofPassing passing)
      (by
        intro t ht
        unfold ParamDesc.ofPassing at ht
        split at ht
        next hcell =>
          cases ht
          simpa using (Bool.and_eq_true_iff.mp hcell).2
        next => cases ht) hnext
    obtain ⟨hlaid', hlayout'⟩ := ih hlaid hlast
    exact ⟨hlaid', by rw [hlayout', hlayout]; simp⟩

/-- Variables that are declared one after the other take the slots from `n` on. -/
def Placed (n : Nat) (vs : List Local) : Prop := vs.map Local.slot = List.range' n vs.length

lemma declareLocals_spec {refs : List (String × Source.TypeRef)} {vs : List Local}
    (henv : env.Valid) (hf : f.Laid) (h : declareLocals env routine f refs = .ok (vs, f')) :
    f'.Laid ∧ f'.layout = (f.layout ++ vs.map fun v => .value v.ty) ∧
      Placed f.layout.length vs ∧ ∀ v ∈ vs, v.ty.Valid := by
  induction refs generalizing f vs with
  | nil =>
    cases h
    exact ⟨hf, by simp, rfl, by simp⟩
  | cons ref rest ih =>
    obtain ⟨name, ref⟩ := ref
    simp only [declareLocals, bind_eq_ok, pure_eq_ok, Prod.mk.injEq] at h
    obtain ⟨ty, hty, ⟨v, next⟩, hnext, ⟨ws, last⟩, hlast, rfl, rfl⟩ := h
    obtain ⟨hlaid, hlayout, hslot, rfl⟩ :=
      declare_spec (d := .value ty) hf rfl rfl (by simp) hnext
    obtain ⟨hlaid', hlayout', hplaced, hvalid⟩ := ih hlaid hlast
    refine ⟨hlaid', by rw [hlayout', hlayout]; simp, ?_, ?_⟩
    · rw [hlayout, List.length_append, List.length_singleton] at hplaced
      rw [Placed, List.map_cons, hslot, hplaced, List.length_cons, List.range'_succ]
    · intro w hw
      rcases List.mem_cons.mp hw with rfl | hw
      · exact henv.typeOf hty
      · exact hvalid w hw

lemma declareResult_spec {result : Option Ty} {v : Option Local} (hf : f.Laid)
    (h : declareResult env routine f result = .ok (v, f')) :
    f'.Laid ∧ f'.layout = (f.layout ++ v.toList.map fun v => .value v.ty) ∧
      Placed f.layout.length v.toList ∧ v.map Local.ty = result := by
  cases result with
  | none =>
    cases h
    exact ⟨hf, by simp, rfl, rfl⟩
  | some ty =>
    simp only [declareResult, bind_eq_ok, pure_eq_ok, Prod.mk.injEq] at h
    obtain ⟨⟨w, next⟩, hnext, rfl, rfl⟩ := h
    obtain ⟨hlaid, hlayout, hslot, rfl⟩ :=
      declare_spec (d := .value ty) hf rfl rfl (by simp) hnext
    exact ⟨hlaid, hlayout, by simp [Placed, hslot], rfl⟩

end Frame

lemma slotOf_eq {v : Symbol} {i : Nat} (h : v.storage = storageIn (slotOf v) i) :
    (v.storage = .slot i ∧ slotOf v = .value v.ty) ∨
      (v.storage = .cell i ∧ slotOf v = .cell v.ty) := by
  unfold slotOf at h ⊢
  split at h
  next => exact .inr ⟨h, rfl⟩
  next => exact .inl ⟨h, rfl⟩

/-- A body sees the variables of its frame and those of the program. -/
lemma fits_of_laid {env : Environment} {path : ScopePath} {f : Frame}
    {visible : List (String × ScopePath)} {Γ : Variables} (hf : f.Laid)
    (hstatics : Γ.statics = env.vars) (hslots : Γ.slots = f.layout) :
    Scope.Fits ⟨env, path, f.symbols, visible⟩ Γ := by
  intro name v hv
  unfold Scope.symbol? at hv
  split at hv
  next w hw =>
    cases hv
    rw [List.lookup_eq_some_iff] at hw
    obtain ⟨before, after, hsplit, -⟩ := hw
    have hi : f.symbols[before.length]? = some (name, v) := by
      dsimp only at hsplit
      simp [hsplit]
    have hslot : Γ.slots[before.length]? = some (slotOf v) := by
      rw [hslots, Frame.layout, List.getElem?_map, hi]
      rfl
    unfold Symbol.Declared
    rcases slotOf_eq (hf.storage hi) with ⟨hstorage, hdesc⟩ | ⟨hstorage, hdesc⟩
    · rw [hstorage, ← hdesc]
      exact hslot
    · rw [hstorage, ← hdesc]
      exact hslot
  next =>
    obtain ⟨ty, hty, rfl⟩ := Option.map_eq_some_iff.mp hv
    show Γ.statics.lookup name = some ty
    rw [hstatics]
    exact hty

theorem routine_wellTyped {env : Environment} {path : ScopePath}
    {visible : List (String × ScopePath)} {h : Source.Heading}
    {vars : List (String × Source.TypeRef)} {body : Source.Stmt} {r : Routine} (henv : env.Valid)
    (hfiled : env.Filed path h) (hbody : body.Branched)
    (hr : (routine env path visible h vars body).outcome = .ok r) : r.WellTyped env.vars := by
  obtain ⟨sig, hsig, hcount⟩ := hfiled
  obtain ⟨before, after, hsplit, -⟩ := List.lookup_eq_some_iff.mp hsig
  have hmem : (path, sig) ∈ env.routines := by simp [hsplit]
  simp only [routine, hsig, Traced.bind_ok, lift_outcome, Traced.outcome_pure,
    Except.ok.injEq] at hr
  obtain ⟨⟨params, f₁⟩, h₁, ⟨locals, f₂⟩, h₂, ⟨result, f₃⟩, h₃, checked, hchecked, -, -, rfl⟩ := hr
  obtain ⟨hlaid₁, hlayout₁⟩ := Frame.declareParams_spec .empty h₁
  obtain ⟨hlaid₂, hlayout₂, hplaced₂, hvalid₂⟩ := Frame.declareLocals_spec henv hlaid₁ h₂
  obtain ⟨hlaid₃, hlayout₃, hplaced₃, hresult⟩ := Frame.declareResult_spec hlaid₂ h₃
  have hparams : f₁.layout = sig.params.map .ofPassing := by
    have hzip : (h.params.zip sig.params).map Prod.snd = sig.params :=
      List.map_snd_zip (by omega)
    have hmap := congrArg (List.map ParamDesc.ofPassing) hzip
    rw [List.map_map] at hmap
    rw [hlayout₁]
    exact hmap
  have hlayout : f₃.layout = (sig.params.map .ofPassing) ++
      (locals ++ result.toList).map fun v => .value v.ty := by
    rw [hlayout₃, hlayout₂, hparams, List.map_append, List.append_assoc]
  refine ⟨?_, ?_, hresult, ?_⟩
  · have hlen₁ : f₁.layout.length = sig.params.length := by rw [hparams, List.length_map]
    have hlen₂ : f₂.layout.length = sig.params.length + locals.length := by
      rw [hlayout₂, List.length_append, hlen₁, List.length_map]
    rw [Frame.Placed, hlen₁] at hplaced₂
    rw [Frame.Placed, hlen₂] at hplaced₃
    rw [List.map_append, hplaced₂, hplaced₃, List.length_append, List.range'_append_1]
  · show f₃.nextSlot = _
    rw [hlaid₃.nextSlot, ← List.length_map (f := fun v : String × Symbol => slotOf v.2)]
    exact congrArg List.length hlayout
  · have hvalid : ∀ d ∈ f₃.layout, d.ty.Valid := by
      intro d hd
      rw [hlayout] at hd
      rcases List.mem_append.mp hd with hd | hd
      · obtain ⟨p, hp, rfl⟩ := List.mem_map.mp hd
        rw [ParamDesc.ty_ofPassing]
        exact henv.params _ hmem p hp
      · obtain ⟨v, hv, rfl⟩ := List.mem_map.mp hd
        rcases List.mem_append.mp hv with hv | hv
        · exact hvalid₂ v hv
        · refine henv.results _ hmem v.ty ?_
          rw [← hresult]
          simpa [Option.mem_toList] using ⟨v, by simpa using hv, rfl⟩
    refine ⟨⟨env.vars, f₃.layout, fun t => hlaid₃.scalar, henv.vars, hvalid⟩, rfl, hlayout, ?_⟩
    exact stmt_wellTyped (fits_of_laid hlaid₃ rfl rfl) body hbody hchecked

mutual

theorem nested_wellTyped {env : Environment} (henv : env.Valid) (path : ScopePath)
    (outer : List (String × ScopePath)) (h : Source.Heading) (b : Source.Block)
    (hown : env.Filed path h) (hfiled : env.BlockFiled path b) (hb : b.Branched)
    {rs : List Routine} (hr : (nested env path outer h b).outcome = .ok rs) :
    ∀ r ∈ rs, r.WellTyped env.vars := by
  match b with
  | ⟨_, _, vars, inner, body⟩ =>
    simp only [nested, Traced.bind_ok, Traced.outcome_pure, Except.ok.injEq] at hr
    obtain ⟨own, hownOk, rest, hrest, rfl⟩ := hr
    intro r hr
    rcases List.mem_cons.mp hr with rfl | hr
    · exact routine_wellTyped henv hown hb.1 hownOk
    · exact routines_wellTyped henv path _ inner hfiled hb.2 hrest r hr

theorem routines_wellTyped {env : Environment} (henv : env.Valid) (path : ScopePath)
    (visible : List (String × ScopePath)) (bs : List (Source.Heading × Source.Block))
    (hfiled : env.RoutinesFiled path bs) (hb : Source.RoutinesBranched bs) {rs : List Routine}
    (hr : (routines env path visible bs).outcome = .ok rs) :
    ∀ r ∈ rs, r.WellTyped env.vars := by
  match bs with
  | [] =>
    cases hr
    simp
  | (h, b) :: rest =>
    simp only [routines, Traced.bind_ok, Traced.outcome_pure, Except.ok.injEq] at hr
    obtain ⟨own, hownOk, more, hmore, rfl⟩ := hr
    intro r hr
    rcases List.mem_append.mp hr with hr | hr
    · exact nested_wellTyped henv _ visible h b hfiled.1 hfiled.2.1 hb.1 hownOk r hr
    · exact routines_wellTyped henv path visible rest hfiled.2.2 hb.2 hmore r hr

end

/-- A program that is checked against its own environment is well-typed. -/
theorem program_wellTyped {env : Environment} {p : Source.Program} {q : Program}
    (henv : Environment.ofProgram p = .ok env) (hp : p.block.Branched)
    (hq : (program env p).outcome = .ok q) : q.WellTyped := by
  obtain ⟨hvalid, hfiled⟩ := Environment.ofProgram_spec henv
  obtain ⟨name, ⟨consts, types, vars, inner, body⟩⟩ := p
  simp only [program, Traced.bind_ok, Traced.outcome_pure, Except.ok.injEq] at hq
  obtain ⟨rs, hrs, checked, hchecked, rfl⟩ := hq
  refine ⟨routines_wellTyped hvalid [] _ inner hfiled hp.2 hrs, ?_⟩
  refine ⟨⟨env.vars, [], by simp, hvalid.vars, by simp⟩, rfl, rfl, ?_⟩
  exact stmt_wellTyped (fits_of_laid (f := .empty) .empty rfl rfl) body hp.1 hchecked

end PascalJvm.Check
