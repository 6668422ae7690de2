import Mathlib.Tactic
import PascalJvm.Emit.Program
import PascalJvm.Proofs.Outcome
import PascalJvm.Proofs.WellTyped

/-!
# What can fail in generation

For a well-typed tree the code of expressions, places, calls, input and output always comes
out. Statements fail in one way only: two branches of a case statement name one constant, and
the policy rejects that.
-/
namespace PascalJvm.Emit

open Jvm Typed

/-- Whenever `x` fails, the error is one of `bad`. -/
def FailsOnly {α : Type} (bad : EmitError → Prop) (x : Gen α) : Prop :=
  ∀ s e, x s = .error e → bad e

namespace FailsOnly

variable {α β : Type} {bad : EmitError → Prop}

lemma pure (a : α) : FailsOnly bad (pure a : Gen α) := by
  intro s e h
  cases h

lemma bind {x : Gen α} {f : α → Gen β} (hx : FailsOnly bad x) (hf : ∀ a, FailsOnly bad (f a)) :
    FailsOnly bad (x >>= f) := by
  intro s e h
  change (x s >>= fun r => f r.1 r.2) = .error e at h
  cases hxs : x s with
  | error e' =>
    rw [hxs] at h
    cases h
    exact hx s _ hxs
  | ok r =>
    rw [hxs] at h
    exact hf r.1 r.2 e h

lemma throw {e : EmitError} (he : bad e) : FailsOnly bad (throw e : Gen α) := by
  intro s e' h
  cases h
  exact he

lemma lift {x : Except EmitError α} (hx : ∀ e, x = .error e → bad e) :
    FailsOnly bad (liftM x : Gen α) := by
  intro s e h
  cases x with
  | error e' =>
    cases h
    exact hx _ rfl
  | ok a => cases h

lemma freshLabel : FailsOnly bad freshLabel := by
  intro s e h
  cases h

lemma freshSlot : FailsOnly bad freshSlot := by
  intro s e h
  cases h

lemma releasing {x : Gen α} (hx : FailsOnly bad x) : FailsOnly bad (releasing x) := by
  intro s e h
  unfold Emit.releasing at h
  split at h
  next => cases h
  next hs =>
    cases h
    exact hx s _ hs

end FailsOnly

section Expressions

variable {bad : EmitError → Prop} {Γ : Variables}

lemma relation_failsOnly {r : Relation} {tyA tyB : Ty} {a b : Gen (List Instr)}
    (ha : FailsOnly bad a) (hb : FailsOnly bad b) : FailsOnly bad (relation r tyA tyB a b) :=
  .bind .freshLabel fun _ => .bind .freshLabel fun _ => .bind ha fun _ => .bind hb fun _ => .pure _

lemma arithmetic_failsOnly {op : BinOp} {ty tyA tyB : Ty} {a b : Gen (List Instr)}
    (ha : FailsOnly bad a) (hb : FailsOnly bad b) : FailsOnly bad (arithmetic op ty tyA tyB a b) :=
  .bind ha fun _ => .bind hb fun _ => .pure _

/-- A variable with parts is in no cell. -/
lemma loadObject_failsOnly {v : Symbol} (hv : v.Declared Γ) (hty : v.ty.isAggregate = true) :
    FailsOnly bad (loadObject v) := by
  obtain ⟨name, storage, ty⟩ := v
  cases storage with
  | static => exact .pure _
  | slot => exact .pure _
  | cell n =>
    have hscalar := hv.cell_scalar rfl
    rw [hty] at hscalar
    cases hscalar

lemma loadVia_failsOnly {walk : Gen (List Instr)} {ty : Ty} {place : Place}
    (h : (∀ v, place ≠ .root v) → FailsOnly bad walk) : FailsOnly bad (loadVia walk ty place) := by
  cases place with
  | root v => exact .pure _
  | field => exact h (by simp)
  | element => exact h (by simp)

lemma passRef_failsOnly {ty : Ty} {place : Place} {load : Gen (List Instr)}
    (h : FailsOnly bad load) : FailsOnly bad (passRef ty place load) := by
  unfold passRef
  split_ifs
  · exact .bind h fun _ => .pure _
  · split
    · exact .pure _
    · exact .bind (.bind .freshSlot fun _ => .bind h fun _ => .pure _) fun _ => .pure _

lemma invocation_failsOnly {callee : Signature} {count : Nat}
    {push : Gen (List Instr × List (Option Nat))} {back : List (Option Nat) → Gen (List Instr)}
    (hcount : count = callee.params.length) (hpush : FailsOnly bad push)
    (hback : ∀ cells, FailsOnly bad (back cells)) :
    FailsOnly bad (invocation callee count push back) := by
  unfold invocation
  rw [if_neg (by simpa using hcount)]
  exact .releasing (.bind hpush fun _ => .bind (hback _) fun _ => .pure _)

mutual

theorem expr_failsOnly : {e : Expr} → (h : e.WellTyped Γ) → FailsOnly bad (expr e)
  | .int _ _, _ => .pure _
  | .real _ _, _ => .pure _
  | .text _ _, _ => .pure _
  | .read _ place _, h => by
    rw [expr]
    exact loadVia_failsOnly fun hpart => path_failsOnly h.1 (.inr hpart)
  | .call _ callee args, h => by
    rw [expr]
    exact invocation_failsOnly h.2.length_eq (pushArgs_failsOnly h.2)
      fun cells => copyBack_failsOnly cells h.2
  | .unary _ .neg x, h => by
    rw [expr]
    exact .bind (expr_failsOnly h.1) fun _ => .pure _
  | .unary _ .not x, h => by
    rw [expr]
    exact .bind (expr_failsOnly h.1) fun _ => .pure _
  | .binary _ op a b, h => by
    rw [expr]
    split
    · exact relation_failsOnly (expr_failsOnly h.1) (expr_failsOnly h.2.1)
    · exact arithmetic_failsOnly (expr_failsOnly h.1) (expr_failsOnly h.2.1)

theorem path_failsOnly : {p : Place} → (h : p.WellTyped Γ) →
    (hobject : p.ty.isAggregate = true ∨ ∀ v, p ≠ .root v) → FailsOnly bad (path p)
  | .root v, h, hobject => by
    rw [path]
    exact loadObject_failsOnly h (hobject.resolve_right fun hpart => hpart v rfl)
  | .field base record name ty, ⟨hbase, fields, hty, _⟩, _ => by
    rw [path]
    exact .bind (path_failsOnly hbase (.inl (by rw [hty]; rfl)))
      fun _ => .pure _
  | .element base index low elem, ⟨hbase, hindex, _, len, hty⟩, _ => by
    rw [path]
    exact .bind (path_failsOnly hbase (.inl (by rw [hty]; rfl)))
      fun _ => .bind (expr_failsOnly hindex) fun _ => .pure _

theorem address_failsOnly : {p : Place} → (h : p.WellTyped Γ) → FailsOnly bad (address p)
  | .root v, h => by
    rw [address]
    exact .pure _
  | .field base record name ty, ⟨hbase, fields, hty, _⟩ => by
    rw [address]
    exact path_failsOnly hbase (.inl (by rw [hty]; rfl))
  | .element base index low elem, ⟨hbase, hindex, _, len, hty⟩ => by
    rw [address]
    exact .bind (path_failsOnly hbase (.inl (by rw [hty]; rfl)))
      fun _ => .bind (expr_failsOnly hindex) fun _ => .pure _

theorem pushArgs_failsOnly : {params : List Passing} → {args : List Arg} →
    (h : ArgsWellTyped Γ params args) → FailsOnly bad (pushArgs params args)
  | [], [], _ => .pure _
  | p :: params, .value e :: args, ⟨_, he, _, hargs⟩ => by
    rw [pushArgs]
    exact .bind (expr_failsOnly he) fun _ => .bind (pushArgs_failsOnly hargs) fun _ => .pure _
  | p :: params, .ref place ty :: args, ⟨_, hplace, _, _, hargs⟩ => by
    rw [pushArgs]
    have hload : FailsOnly bad (loadVia (path place) ty place) :=
      loadVia_failsOnly fun hpart => path_failsOnly hplace (.inr hpart)
    exact .bind (passRef_failsOnly hload) fun _ => .bind (pushArgs_failsOnly hargs) fun _ =>
      .pure _

theorem copyBack_failsOnly : {params : List Passing} → {args : List Arg} →
    (cells : List (Option Nat)) → (h : ArgsWellTyped Γ params args) →
    FailsOnly bad (copyBack cells args)
  | [], [], [], _ => .pure _
  | [], [], _ :: _, _ => by
    simp only [copyBack]
    exact .pure _
  | _ :: _, _ :: _, [], _ => .pure _
  | _ :: _, .value _ :: _, some _ :: cells, ⟨_, _, _, hargs⟩ => by
    rw [copyBack]
    · exact copyBack_failsOnly cells hargs
    · simp
  | _ :: _, .value _ :: _, none :: cells, ⟨_, _, _, hargs⟩ => by
    rw [copyBack]
    · exact copyBack_failsOnly cells hargs
    · simp
  | _ :: _, .ref _ _ :: _, none :: cells, ⟨_, _, _, _, hargs⟩ => by
    rw [copyBack]
    · exact copyBack_failsOnly cells hargs
    · simp
  | _ :: _, .ref place _ :: _, some _ :: cells, ⟨_, hplace, _, _, hargs⟩ => by
    rw [copyBack]
    exact .bind (address_failsOnly hplace) fun _ => .bind (copyBack_failsOnly cells hargs) fun _ =>
      .pure _

end

lemma call_failsOnly {callee : Signature} {args : List Arg}
    (h : ArgsWellTyped Γ callee.params args) : FailsOnly bad (call callee args) :=
  invocation_failsOnly h.length_eq (pushArgs_failsOnly h) fun cells => copyBack_failsOnly cells h

lemma load_failsOnly {d : Designator} (h : d.WellTyped Γ) : FailsOnly bad (load d) :=
  loadVia_failsOnly fun hpart => path_failsOnly h.place (.inr hpart)

lemma assign_failsOnly {target : Designator} {value : Expr} (ht : target.WellTyped Γ)
    (hv : value.WellTyped Γ) : FailsOnly bad (assign target value) :=
  .bind (address_failsOnly ht.place) fun _ => .bind (expr_failsOnly hv) fun _ => .pure _

lemma stepCounter_failsOnly {counter : Designator} {down : Bool} (h : counter.WellTyped Γ) :
    FailsOnly bad (stepCounter counter down) :=
  .bind (address_failsOnly h.place) fun _ => .bind (load_failsOnly h) fun _ => .pure _

lemma readTargets_failsOnly {ds : List Designator} (h : ∀ d ∈ ds, d.WellTyped Γ) :
    FailsOnly bad (readTargets ds) := by
  induction ds with
  | nil => exact .pure _
  | cons d ds ih =>
    obtain ⟨hd, hds⟩ := List.forall_mem_cons.mp h
    exact .bind (.bind (address_failsOnly hd.place) fun _ => .pure _) fun _ =>
      .bind (ih hds) fun _ => .pure _

lemma fillObjects_failsOnly {es : List Expr} (h : ∀ e ∈ es, e.WellTyped Γ) (n : Nat) :
    FailsOnly bad (fillObjects n es) := by
  induction es generalizing n with
  | nil => exact .pure _
  | cons e es ih =>
    obtain ⟨he, hes⟩ := List.forall_mem_cons.mp h
    exact .bind (expr_failsOnly he) fun _ => .bind (ih hes _) fun _ => .pure _

lemma writtenValues_wellTyped {args : List WriteArg} (h : ∀ a ∈ args, a.WellTyped Γ) :
    ∀ e ∈ writtenValues args, e.WellTyped Γ ∧ e.ty.isAggregate = false := by
  intro e he
  obtain ⟨a, ha, hae⟩ := List.mem_filterMap.mp he
  cases a with
  | literal s => cases hae
  | value e' width =>
    cases hae
    exact ⟨(h _ ha).1, (h _ ha).2.1⟩

lemma write_failsOnly {line : Bool} {args : List WriteArg} (h : ∀ a ∈ args, a.WellTyped Γ) :
    FailsOnly bad (write line args) := by
  have hvalues := writtenValues_wellTyped h
  unfold write
  split_ifs
  · exact .pure _
  · exact .pure _
  · dsimp only
    rcases hws : writtenValues args with _ | ⟨e, es⟩
    · exact .pure _
    · rw [hws] at hvalues
      exact .bind (fillObjects_failsOnly (fun e he => (hvalues e he).1) _) fun _ => .pure _

lemma initial_failsOnly (ty : Ty) : FailsOnly bad (initial ty) := by
  induction ty using initial.induct with
  | case6 low len elem href ih =>
    simp only [initial, href, if_true]
    refine .bind (.releasing ?_) fun _ => .pure _
    exact .bind .freshSlot fun _ => .bind .freshSlot fun _ => .bind .freshLabel fun _ =>
      .bind .freshLabel fun _ => .bind ih fun _ => .pure _
  | case7 low len elem href =>
    simp only [initial, href, if_false]
    exact .pure _
  | _ =>
    simp only [initial]
    exact .pure _

lemma initFields_failsOnly (record : String) (fields : List (String × Ty)) :
    FailsOnly bad (initFields record fields) := by
  induction fields with
  | nil => exact .pure _
  | cons field rest ih =>
    unfold initFields
    split_ifs
    · exact .bind (initial_failsOnly field.2) fun _ => .bind ih fun _ => .pure _
    · exact ih

lemma initGlobals_failsOnly (globals : List (String × Ty)) :
    FailsOnly bad (initGlobals globals) := by
  induction globals with
  | nil => exact .pure _
  | cons global rest ih =>
    exact .bind (initial_failsOnly global.2) fun _ => .bind ih fun _ => .pure _

lemma initLocals_failsOnly (vars : List Local) : FailsOnly bad (initLocals vars) := by
  induction vars with
  | nil => exact .pure _
  | cons v rest ih => exact .bind (initial_failsOnly v.ty) fun _ => .bind ih fun _ => .pure _

end Expressions

section Statements

variable {policy : CasePolicy} {Γ : Variables}

/-- Two branches of a case statement name one constant, which the policy rejects. -/
def ConstantClash (policy : CasePolicy) (e : EmitError) : Prop :=
  policy = .reject ∧ ∃ v, e = .duplicateConstant v

lemma addBranch_failsOnly {table : CaseTable} {l : Label} {values : List Int32} {e : EmitError}
    (h : table.addBranch policy l values = .error e) : ConstantClash policy e := by
  induction values generalizing table with
  | nil => cases h
  | cons v rest ih =>
    simp only [CaseTable.addBranch] at h
    split_ifs at h with hclash
    · cases h
      rw [Bool.and_eq_true_iff, decide_eq_true_iff] at hclash
      exact ⟨hclash.1, v, rfl⟩
    · exact ih h

lemma caseTable_failsOnly {table : CaseTable} {values : List (List Int32)}
    (h : ∀ vs ∈ values, vs ≠ []) :
    FailsOnly (ConstantClash policy) (caseTable policy table values) := by
  induction values generalizing table with
  | nil => exact .pure _
  | cons vs rest ih =>
    obtain ⟨hvs, hrest⟩ := List.forall_mem_cons.mp h
    unfold caseTable
    rw [if_neg (by simpa using hvs)]
    exact .bind .freshLabel fun _ => .bind (.lift fun _ => addBranch_failsOnly) fun _ =>
      .bind (ih hrest) fun _ => .pure _

lemma entering_failsOnly {bad : EmitError → Prop} {kind : String} {x : Gen (List Op)}
    (h : FailsOnly bad x) : FailsOnly bad (entering kind x) :=
  .bind h fun _ => .pure _

lemma defaultLabel_failsOnly {bad : EmitError → Prop} {done : Label} {hasDefault : Bool} :
    FailsOnly bad (defaultLabel done hasDefault) := by
  cases hasDefault
  · exact .pure _
  · exact .freshLabel

mutual

theorem stmt_failsOnly : {c : Stmt} → (h : c.WellTyped Γ) →
    FailsOnly (ConstantClash policy) (stmt policy c)
  | .empty, _ => entering_failsOnly (.pure _)
  | .compound body, h => by
    rw [stmt]
    exact entering_failsOnly (stmts_failsOnly h)
  | .assign target value, h => by
    rw [stmt]
    exact entering_failsOnly (.bind (assign_failsOnly h.1 h.2.1) fun _ => .pure _)
  | .ifThen cond yes no, ⟨hcond, hyes, hno⟩ => by
    rw [stmt]
    exact entering_failsOnly (.bind .freshLabel fun _ => .bind .freshLabel fun _ =>
      .bind (expr_failsOnly hcond.wellTyped) fun _ => .bind (optional_failsOnly hno) fun _ =>
      .bind (stmt_failsOnly hyes) fun _ => .pure _)
  | .caseOf selector branches otherwise, ⟨hselector, _, harms, hotherwise⟩ => by
    rw [stmt]
    exact entering_failsOnly (.bind .freshLabel fun _ =>
      .bind (caseTable_failsOnly harms.constants) fun _ => .bind defaultLabel_failsOnly fun _ =>
      .bind (expr_failsOnly hselector) fun _ => .bind (arms_failsOnly harms) fun _ =>
      .bind (optional_failsOnly hotherwise) fun _ => .pure _)
  | .repeatUntil body cond, ⟨hbody, hcond⟩ => by
    rw [stmt]
    exact entering_failsOnly (.bind .freshLabel fun _ => .bind .freshLabel fun _ =>
      .bind (stmts_failsOnly hbody) fun _ => .bind (expr_failsOnly hcond.wellTyped) fun _ =>
      .pure _)
  | .whileDo cond body, ⟨hcond, hbody⟩ => by
    rw [stmt]
    exact entering_failsOnly (.bind .freshLabel fun _ => .bind .freshLabel fun _ =>
      .bind (expr_failsOnly hcond.wellTyped) fun _ => .bind (stmt_failsOnly hbody) fun _ =>
      .pure _)
  | .forDo counter first last down body, ⟨hcounter, _, hfirst, _, hlast, _, hbody, _⟩ => by
    rw [stmt]
    exact entering_failsOnly (.bind .freshLabel fun _ => .bind .freshLabel fun _ =>
      .bind (assign_failsOnly hcounter hfirst) fun _ => .bind (expr_failsOnly hlast) fun _ =>
      .bind (load_failsOnly hcounter) fun _ => .bind (stmt_failsOnly hbody) fun _ =>
      .bind (stepCounter_failsOnly hcounter) fun _ => .pure _)
  | .procedureCall callee args, h => by
    rw [stmt]
    exact entering_failsOnly (.bind (call_failsOnly h.2) fun _ => .pure _)
  | .functionCall callee args, h => by
    rw [stmt]
    exact entering_failsOnly (.bind (call_failsOnly h.2) fun _ => .pure _)
  | .write line args, h => by
    rw [stmt]
    exact entering_failsOnly (.bind (write_failsOnly h) fun _ => .pure _)
  | .read line targets, h => by
    rw [stmt]
    exact entering_failsOnly (.bind (.bind (readTargets_failsOnly fun d hd => (h d hd).1)
      fun _ => .pure _) fun _ => .pure _)

theorem stmts_failsOnly : {cs : List Stmt} → (h : StmtsWellTyped Γ cs) →
    FailsOnly (ConstantClash policy) (stmts policy cs)
  | [], _ => .pure _
  | c :: cs, ⟨hc, hcs⟩ => by
    rw [stmts]
    exact .bind (stmt_failsOnly hc) fun _ => .bind (stmts_failsOnly hcs) fun _ => .pure _

theorem optional_failsOnly : {c : Option Stmt} → (h : OptionalWellTyped Γ c) →
    FailsOnly (ConstantClash policy) (optional policy c)
  | none, _ => .pure _
  | some c, h => by
    rw [optional]
    exact stmt_failsOnly h

theorem arms_failsOnly : {branches : List (List Int32 × Stmt)} → {done : Label} →
    {labels : List Label} → (h : ArmsWellTyped Γ branches) →
    FailsOnly (ConstantClash policy) (arms policy done labels branches)
  | [], _, labels, _ => by
    cases labels <;> exact .pure _
  | branch :: rest, done, [], _ => .pure _
  | (values, c) :: rest, done, l :: labels, ⟨_, hc, hrest⟩ => by
    rw [arms]
    exact .bind (stmt_failsOnly hc) fun _ => .bind (arms_failsOnly hrest) fun _ => .pure _

end

end Statements
end PascalJvm.Emit
