import Mathlib.Tactic
import PascalJvm.Proofs.ExpressionRuns

/-!
# Running the code of statements

The code of a statement takes the store to the one that the statement means, and leaves the
operand stack as it was; where the meaning traps, so does the code. A loop is followed round by
round. The table of a case statement leads to the branch that the meaning takes.
-/
namespace PascalJvm

namespace Emit.CaseTable

lemma lookup_put (value : Int32) (l : Jvm.Label) (table : CaseTable) (i : Int32) :
    (put value l table).lookup i = if i = value then some l else table.lookup i := by
  induction table with
  | nil => grind [put]
  | cons entry rest ih =>
    obtain ⟨v, m⟩ := entry
    rw [put]
    grind

lemma lookup_addBranch {policy : CasePolicy} {l : Jvm.Label} {values : List Int32}
    {table table' : CaseTable} (h : addBranch policy l table values = .ok table') (i : Int32) :
    table'.lookup i = if i ∈ values then some l else table.lookup i := by
  induction values generalizing table with
  | nil =>
    cases h
    rfl
  | cons v rest ih =>
    simp only [addBranch] at h
    split_ifs at h
    rw [ih h, lookup_put]
    by_cases hi : i = v <;> by_cases hr : i ∈ rest <;> simp [hi, hr]

end Emit.CaseTable

/-- The statement of the last branch that lists the value. -/
def Typed.lastListing (i : Int32) (branches : List (List Int32 × Stmt)) : Option Stmt :=
  (branches.reverse.find? fun branch => i ∈ branch.1).map Prod.snd

lemma Typed.lastListing_cons (i : Int32) (values : List Int32) (c : Stmt)
    (rest : List (List Int32 × Stmt)) : lastListing i ((values, c) :: rest) =
      (lastListing i rest).or (if i ∈ values then some c else none) := by
  simp only [lastListing, List.reverse_cons, List.find?_append, Option.map_or]
  by_cases hi : i ∈ values <;> simp [hi]

namespace Run

open Jvm Typed

variable {host : Host} {Γ : Variables} {policy : Emit.CasePolicy}

/-- The entry of the table for a value is the label of the last branch that lists it. -/
lemma caseTable_lookup {branches : List (List Int32 × Stmt)} {table table' : Emit.CaseTable}
    {labels : List Label} {s t : Emit.Supply}
    (h : Emit.caseTable policy table (branches.map Prod.fst) s = .ok ((labels, table'), t))
    (i : Int32) :
    (table'.lookup i = table.lookup i ∧ lastListing i branches = none) ∨
      ∃ l values c, (l, values, c) ∈ labels.zip branches ∧ table'.lookup i = some l ∧
        lastListing i branches = some c := by
  induction branches generalizing table labels s with
  | nil =>
    simp only [List.map_nil, Emit.caseTable, Emit.Gen.pure_ok, Prod.mk.injEq] at h
    obtain ⟨⟨rfl, rfl⟩, rfl⟩ := h
    exact .inl ⟨rfl, rfl⟩
  | cons branch rest ih =>
    obtain ⟨values, c⟩ := branch
    obtain ⟨-, branch, labels', hbranch, hrest, rfl⟩ := Emit.caseTable_cons_ok.mp h
    rw [lastListing_cons]
    rcases ih hrest with ⟨hlookup, hnone⟩ | ⟨l, values', c', hmem, hlookup, hsome⟩
    · rw [hlookup, hnone, Emit.CaseTable.lookup_addBranch hbranch, Option.none_or]
      split_ifs with hi
      · exact .inr ⟨_, values, c, by simp, rfl, rfl⟩
      · exact .inl ⟨rfl, rfl⟩
    · rw [hsome, Option.some_or]
      exact .inr ⟨l, values', c', by simp [hmem], hlookup, rfl⟩

lemma execBranch_eq (fuel : Nat) (i : Int32) (branches : List (List Int32 × Stmt)) (σ : Store) :
    execBranch host fuel i branches σ = (lastListing i branches).map (exec host fuel · σ) := by
  induction branches with
  | nil => rfl
  | cons branch rest ih =>
    obtain ⟨values, c⟩ := branch
    rw [execBranch, ih, lastListing_cons]
    cases lastListing i rest with
    | none => split_ifs <;> rfl
    | some => rfl

/-- The entry of the table for a value is the label of the branch that is executed. -/
lemma caseTable_selects {branches : List (List Int32 × Stmt)} {table table' : Emit.CaseTable}
    {labels : List Label} {s t : Emit.Supply}
    (h : Emit.caseTable policy table (branches.map Prod.fst) s = .ok ((labels, table'), t))
    (fuel : Nat) (i : Int32) (σ : Store) :
    (table'.lookup i = table.lookup i ∧ execBranch host fuel i branches σ = none) ∨
      ∃ l values c, (l, values, c) ∈ labels.zip branches ∧ table'.lookup i = some l ∧
        execBranch host fuel i branches σ = some (exec host fuel c σ) := by
  rw [execBranch_eq]
  rcases caseTable_lookup h i with ⟨hlookup, hnone⟩ | ⟨l, values, c, hmem, hlookup, hsome⟩
  · exact .inl ⟨hlookup, by rw [hnone, Option.map_none]⟩
  · exact .inr ⟨l, values, c, hmem, hlookup, by rw [hsome, Option.map_some]⟩

/-- Generated code takes every well-typed store where the meaning takes it, on any stack. -/
def Performs (host : Host) (Γ : Variables) (gen : Emit.Gen (List Op))
    (f : Store → Eval Store) : Prop :=
  ∀ ⦃s ops t⦄, gen s = .ok (ops, t) → ∀ ⦃σ : Store⦄, σ.WellTyped Γ.statics Γ.slots → ∀ st,
    Runs host (emitted ops) ⟨st, σ⟩ (f σ) fun τ => ⟨st, τ⟩

lemma Performs.entering {kind : String} {gen : Emit.Gen (List Op)} {f : Store → Eval Store}
    (h : Performs host Γ gen f) : Performs host Γ (Emit.entering kind gen) f := by
  intro s ops t hops σ hσ st
  obtain ⟨ops', hops', rfl⟩ := Emit.entering_ok.mp hops
  exact h hops' hσ st

lemma performs_nil : Performs host Γ (return []) (fun σ => .ok σ) := by
  intro s ops t hops σ _ st
  obtain ⟨rfl, rfl⟩ := Emit.Gen.pure_ok.mp hops
  exact .nil σ

section

variable {σ : Store} {cond : Expr} {st : List Value} {s t : Emit.Supply} {codeC : List Instr}
  {body : Store → Eval Store} {codeB : List Instr} {top exit : Label}

/-- The code of two branches that meet again. -/
lemma runs_ifThen (hσ : σ.WellTyped Γ.statics Γ.slots) (hcond : cond.Condition Γ)
    (hfree : cond.callFree = true) (hC : Emit.expr cond s = .ok (codeC, t)) {no yes : Eval Store}
    {codeN codeY : List Instr} {yesLabel done : Label}
    (hno : Runs host codeN ⟨st, σ⟩ no fun τ => ⟨st, τ⟩)
    (hyes : Runs host codeY ⟨st, σ⟩ yes fun τ => ⟨st, τ⟩) :
    Runs host (codeC ++ [.ifZero .ne yesLabel] ++ codeN ++ [.goto done, .label yesLabel] ++ codeY ++
      [.label done]) ⟨st, σ⟩ (do if ← isTrue host cond σ then yes else no) fun τ => ⟨st, τ⟩ := by
  intro code p hn hcode
  generalize hq : p + List.length _ = q
  obtain rfl : q = p + codeC.length + 1 + codeN.length + 1 + 1 + codeY.length + 1 := by
    simp at hq
    omega
  simp only [List.append_assoc, List.cons_append, List.nil_append, codeAt_append, codeAt_cons,
    codeAt_nil, and_true] at hcode
  obtain ⟨hcondAt, hjump, hnoAt, hgoto, hlabel, hyesAt, hdone⟩ := hcode
  refine (follows_test hσ hcond hfree true hC hn hcondAt hjump hlabel st).bind fun b _ => ?_
  cases b with
  | true => exact .step (step_label hlabel) ((hyes hn hyesAt).finish fun τ => step_label hdone)
  | false =>
    have hmeet := (hno hn hnoAt).finish fun τ => step_goto hn hgoto hdone
    exact hmeet.finish fun τ => step_label hdone

/-- The code of a loop that tests before each round. -/
lemma runs_while (hσ : σ.WellTyped Γ.statics Γ.slots) (hcond : cond.Condition Γ)
    (hfree : cond.callFree = true) (hC : Emit.expr cond s = .ok (codeC, t))
    (hbody : ∀ τ : Store, τ.WellTyped Γ.statics Γ.slots →
      Runs host codeB ⟨st, τ⟩ (body τ) fun υ => ⟨st, υ⟩)
    (hshape : KeepsShape Γ body) (fuel : Nat) :
    Runs host ([.label top] ++ codeC ++ [.ifZero .eq exit] ++ codeB ++ [.goto top, .label exit])
      ⟨st, σ⟩ (iterate (whileRound host cond body) fuel σ) fun τ => ⟨st, τ⟩ := by
  intro code p hn hcode
  generalize hq : p + List.length _ = q
  obtain rfl : q = p + 1 + codeC.length + 1 + codeB.length + 1 + 1 := by
    simp at hq
    omega
  simp only [List.append_assoc, List.cons_append, List.nil_append, codeAt_append, codeAt_cons,
    codeAt_nil, and_true] at hcode
  obtain ⟨htop, hcondAt, hjump, hbodyAt, hgoto, hexit⟩ := hcode
  refine Follows.iterate (whileRound_safe hcond hfree hshape) (fun τ hτ => ?_) fuel hσ
  refine .step (step_label htop) ?_
  refine (follows_test hτ hcond hfree false hC hn hcondAt hjump hexit st).bind fun b _ => ?_
  cases b with
  | true => exact (hbody τ hτ hn hbodyAt).bind fun υ _ => .step (step_goto hn hgoto htop) (.ok rfl)
  | false => exact .step (step_label hexit) (.ok rfl)

/-- The code of a loop that tests after each round. -/
lemma runs_repeat (hσ : σ.WellTyped Γ.statics Γ.slots) (hcond : cond.Condition Γ)
    (hfree : cond.callFree = true) (hC : Emit.expr cond s = .ok (codeC, t))
    (hbody : ∀ τ : Store, τ.WellTyped Γ.statics Γ.slots →
      Runs host codeB ⟨st, τ⟩ (body τ) fun υ => ⟨st, υ⟩)
    (hshape : KeepsShape Γ body) (fuel : Nat) :
    Runs host ([.label top] ++ codeB ++ (codeC ++ [.ifZero .ne exit, .goto top, .label exit]))
      ⟨st, σ⟩ (iterate (repeatRound host body cond) fuel σ) fun τ => ⟨st, τ⟩ := by
  intro code p hn hcode
  generalize hq : p + List.length _ = q
  obtain rfl : q = p + 1 + codeB.length + codeC.length + 1 + 1 + 1 := by
    simp at hq
    omega
  simp only [List.cons_append, List.nil_append, codeAt_append, codeAt_cons, codeAt_nil,
    and_true] at hcode
  obtain ⟨htop, hbodyAt, hcondAt, hjump, hgoto, hexit⟩ := hcode
  refine Follows.iterate (repeatRound_safe hshape hcond hfree) (fun τ hτ => ?_) fuel hσ
  refine .step (step_label htop) ((hbody τ hτ hn hbodyAt).bind fun υ hυ => ?_)
  have hwt := hτ.alike ((hshape hτ).of_ok hυ)
  refine (follows_test hwt hcond hfree true hC hn hcondAt hjump hexit st).bind fun b _ => ?_
  cases b with
  | true => exact .step (step_label hexit) (.ok rfl)
  | false => exact .step (step_goto hn hgoto htop) (.ok rfl)

/-- The code of a loop with a counter. -/
lemma runs_for (hσ : σ.WellTyped Γ.statics Γ.slots) {counter : Designator} {first last : Expr}
    {down : Bool} (h : counter.WellTyped Γ) (hord : counter.ty.isOrdinal = true)
    (hfree : counter.place.callFree = true) (hlast : last.WellTyped Γ)
    (hlastOrd : last.ty.isOrdinal = true) (hlastFree : last.callFree = true)
    {codeF codeL codeI codeS : List Instr} {u u' v v' w w' : Emit.Supply}
    (hF : Runs host codeF ⟨st, σ⟩ (assign host counter first σ) fun τ => ⟨st, τ⟩)
    (hassign : KeepsShape Γ (assign host counter first))
    (hL : Emit.expr last u = .ok (codeL, u')) (hI : Emit.load counter v = .ok (codeI, v'))
    (hbody : ∀ τ : Store, τ.WellTyped Γ.statics Γ.slots →
      Runs host codeB ⟨st, τ⟩ (body τ) fun υ => ⟨st, υ⟩)
    (hshape : KeepsShape Γ body) (hS : Emit.stepCounter counter down w = .ok (codeS, w'))
    (fuel : Nat) :
    Runs host (codeF ++ [.label top] ++ codeL ++ codeI ++
        [.ifCompare (if down then .gt else .lt) exit] ++ codeB ++ (codeS ++ [.goto top, .label exit]))
      ⟨st, σ⟩ (assign host counter first σ >>= iterate (forRound host counter last down body) fuel)
      fun τ => ⟨st, τ⟩ := by
  intro code p hn hcode
  generalize hq : p + List.length _ = q
  obtain rfl : q = p + codeF.length + 1 + codeL.length + codeI.length + 1 + codeB.length +
      codeS.length + 1 + 1 := by
    simp at hq
    omega
  simp only [List.append_assoc, List.cons_append, List.nil_append, codeAt_append, codeAt_cons,
    codeAt_nil, and_true] at hcode
  obtain ⟨hfirstAt, htop, hlastAt, hcounterAt, hjump, hbodyAt, hstepAt, hgoto, hexit⟩ := hcode
  refine (hF hn hfirstAt).bind fun σ₁ hσ₁ => ?_
  refine Follows.iterate (forRound_safe h hord hfree hlast hlastOrd hlastFree down hshape)
    (fun τ hτ => ?_) fuel (hσ.alike ((hassign hσ).of_ok hσ₁))
  refine .step (step_label htop) ?_
  refine (expr_computes hτ last hlast hlastFree hL st hn hlastAt).bind fun v hv => ?_
  obtain ⟨limit, rfl⟩ := ((eval_safe hτ last hlast hlastFree).of_ok hv).eq_int hlastOrd
  change Follows host code _ (counterValue host counter τ >>= _) _
  refine (runs_counter hτ h hord hfree hI _ hn hcounterAt).bind fun i _ => ?_
  refine .step (step_ifCompare hn hjump hexit) ?_
  have hpassed : (if down then Relation.gt else Relation.lt).holds limit i = passed down limit i := by
    cases down <;> rfl
  rw [hpassed]
  cases passed down limit i with
  | true => exact .step (step_label hexit) (.ok rfl)
  | false =>
    refine (hbody τ hτ hn hbodyAt).bind fun υ hυ => ?_
    have hwt := hτ.alike ((hshape hτ).of_ok hυ)
    exact (runs_stepCounter hwt h hord hfree down hS st hn hstepAt).bind fun ω _ =>
      .step (step_goto hn hgoto htop) (.ok rfl)

/-- From the label of every branch, control comes to `done` as the branch means. -/
def BranchesFollow (host : Host) (code : List Instr) (fuel : Nat) (labels : List Label)
    (branches : List (List Int32 × Stmt)) (st : List Value) (σ : Store) (done : Nat) : Prop :=
  ∀ l values c, (l, values, c) ∈ labels.zip branches → ∃ q, code[q]? = some (.label l) ∧
    Follows host code ⟨q, st, σ⟩ (exec host fuel c σ) fun τ => ⟨done, st, τ⟩

/-- The code of a case statement. -/
lemma runs_case (hσ : σ.WellTyped Γ.statics Γ.slots) {selector : Expr}
    {branches : List (List Int32 × Stmt)} {otherwise : Option Stmt} (h : selector.WellTyped Γ)
    (hord : selector.ty.isOrdinal = true) (hfree : selector.callFree = true)
    {codeA codeD : List Instr} {labels : List Label} {table : Emit.CaseTable}
    {default done : Label} {u v w : Emit.Supply} (fuel : Nat)
    (hC : Emit.expr selector s = .ok (codeC, t))
    (htable : Emit.caseTable policy [] (branches.map Prod.fst) u = .ok ((labels, table), v))
    (hdefault : Emit.defaultLabel done otherwise.isSome v = .ok (default, w))
    (harms : ∀ {code p d}, (boundLabels code).Nodup → CodeAt code p codeA →
      code[d]? = some (.label done) → BranchesFollow host code fuel labels branches st σ d)
    (hD : Runs host codeD ⟨st, σ⟩ (execOptional host fuel otherwise σ) fun τ => ⟨st, τ⟩) :
    Runs host (codeC ++ [.lookupSwitch table default] ++ codeA ++
        (if otherwise.isSome then [.label default] else []) ++ codeD ++ [.label done]) ⟨st, σ⟩
      (exec host fuel (.caseOf selector branches otherwise) σ) fun τ => ⟨st, τ⟩ := by
  intro code p hn hcode
  simp only [codeAt_append, codeAt_singleton] at hcode
  obtain ⟨⟨⟨⟨⟨hselectorAt, hswitch⟩, harmsAt⟩, hlabelAt⟩, hdefaultAt⟩, hdone⟩ := hcode
  generalize hd : p + List.length _ = d at hdone
  obtain ⟨hlabel, -⟩ := Emit.defaultLabel_ok.mp hdefault
  have hother : ∃ q, code[q]? = some (.label default) ∧ Follows host code ⟨q, st, σ⟩
      (execOptional host fuel otherwise σ) fun τ => ⟨d, st, τ⟩ := by
    cases otherwise with
    | none =>
      obtain rfl : default = done := hlabel
      exact ⟨d, hdone, .ok rfl⟩
    | some c =>
      have hlabelAt := codeAt_singleton.mp hlabelAt
      refine ⟨_, hlabelAt, .step (step_label hlabelAt) ?_⟩
      have hfollow := hD hn hdefaultAt
      simp only [Option.isSome_some, if_true, List.length_append, List.length_cons,
        List.length_nil, zero_add, ← Nat.add_assoc] at hfollow hd ⊢
      rwa [hd] at hfollow
  rw [List.length_append, List.length_singleton, ← Nat.add_assoc, hd]
  refine Follows.finish ?_ fun τ => step_label hdone
  rw [exec]
  refine (expr_computes hσ selector h hfree hC st hn hselectorAt).bind fun v hv => ?_
  obtain ⟨i, rfl⟩ := ((eval_safe hσ selector h hfree).of_ok hv).eq_int hord
  change Follows host code _ ((execBranch host fuel i branches σ).getD _) _
  rcases caseTable_selects htable fuel i σ with ⟨hlookup, hnone⟩ |
    ⟨l, values, c, hmem, hlookup, hsome⟩
  · obtain ⟨q, hq, hfollow⟩ := hother
    rw [hnone]
    exact .step (step_lookupSwitch hn hswitch (by rw [hlookup]; exact hq)) hfollow
  · obtain ⟨q, hq, hfollow⟩ := harms hn harmsAt hdone l values c hmem
    rw [hsome]
    exact .step (step_lookupSwitch hn hswitch (by rw [hlookup]; exact hq)) hfollow

end

mutual

/-- The code of a statement does what the statement means. -/
theorem stmt_performs (fuel : Nat) : (c : Stmt) → (h : c.WellTyped Γ) →
    (hfree : c.callFree = true) → Performs host Γ (Emit.stmt policy c) (exec host fuel c)
  | .empty, _, _ => by
    rw [Emit.stmt]
    exact performs_nil.entering
  | .compound body, h, hfree => by
    rw [Emit.stmt]
    exact (stmts_performs fuel body h hfree).entering
  | .assign target value, ⟨htarget, hvalue, hscalar, haccepts⟩, hfree => by
    rw [Stmt.callFree, Bool.and_eq_true_iff] at hfree
    rw [Emit.stmt]
    refine .entering fun s ops t hops σ hσ st => ?_
    simp only [Emit.Gen.bind_ok, Emit.Gen.pure_ok] at hops
    obtain ⟨code, u, hcode, rfl, rfl⟩ := hops
    rw [Emit.emitted_asm]
    exact runs_assign hσ htarget hvalue hscalar haccepts hfree.1 hfree.2 hcode st
  | .ifThen cond yes no, ⟨hcond, hyes, hno⟩, hfree => by
    simp only [Stmt.callFree, Bool.and_eq_true] at hfree
    obtain ⟨⟨hfc, hfy⟩, hfn⟩ := hfree
    rw [Emit.stmt]
    refine .entering fun s ops t hops σ hσ st => ?_
    simp only [Emit.Gen.bind_ok, Emit.Gen.pure_ok] at hops
    obtain ⟨yesLabel, _, -, done, _, -, codeC, _, hC, codeN, _, hN, codeY, _, hY, rfl, rfl⟩ := hops
    simp only [emitted_append, Emit.emitted_asm]
    exact runs_ifThen hσ hcond hfc hC (optional_performs fuel no hno hfn hN hσ st)
      (stmt_performs fuel yes hyes hfy hY hσ st)
  | .caseOf selector branches otherwise, ⟨hsel, hord, hbranches, hother⟩, hfree => by
    simp only [Stmt.callFree, Bool.and_eq_true] at hfree
    obtain ⟨⟨hfs, hfb⟩, hfo⟩ := hfree
    rw [Emit.stmt]
    refine .entering fun s ops t hops σ hσ st => ?_
    simp only [Emit.Gen.bind_ok, Emit.Gen.pure_ok, Prod.exists] at hops
    obtain ⟨done, _, -, labels, table, _, htable, default, _, hdefault, codeC, _, hC, codeA, _, hA,
      codeD, _, hD, rfl, rfl⟩ := hops
    simp only [emitted_append, Emit.emitted_asm]
    exact runs_case hσ hsel hord hfs fuel hC htable hdefault
      (fun hn hcode hdone => arms_follow fuel done labels branches hbranches hfb hA hn hcode hdone hσ st)
      (optional_performs fuel otherwise hother hfo hD hσ st)
  | .repeatUntil body cond, ⟨hbody, hcond⟩, hfree => by
    rw [Stmt.callFree, Bool.and_eq_true_iff] at hfree
    rw [Emit.stmt]
    refine .entering fun s ops t hops σ hσ st => ?_
    simp only [Emit.Gen.bind_ok, Emit.Gen.pure_ok] at hops
    obtain ⟨top, _, -, exit, _, -, codeB, _, hB, codeC, _, hC, rfl, rfl⟩ := hops
    simp only [emitted_append, Emit.emitted_asm]
    exact runs_repeat hσ hcond hfree.2 hC
      (fun τ hτ => stmts_performs fuel body hbody hfree.1 hB hτ st)
      (execAll_safe fuel body hbody hfree.1) fuel
  | .whileDo cond body, ⟨hcond, hbody⟩, hfree => by
    rw [Stmt.callFree, Bool.and_eq_true_iff] at hfree
    rw [Emit.stmt]
    refine .entering fun s ops t hops σ hσ st => ?_
    simp only [Emit.Gen.bind_ok, Emit.Gen.pure_ok] at hops
    obtain ⟨top, _, -, exit, _, -, codeC, _, hC, codeB, _, hB, rfl, rfl⟩ := hops
    simp only [emitted_append, Emit.emitted_asm]
    exact runs_while hσ hcond hfree.1 hC
      (fun τ hτ => stmt_performs fuel body hbody hfree.2 hB hτ st)
      (exec_safe fuel body hbody hfree.2) fuel
  | .forDo counter first last down body, ⟨hcounter, hord, hfirst, hsame, hlast, hsame', hbody, _⟩,
      hfree => by
    simp only [Stmt.callFree, Bool.and_eq_true] at hfree
    obtain ⟨⟨⟨hfc, hff⟩, hfl⟩, hfb⟩ := hfree
    have hscalar := Ty.isAggregate_of_isOrdinal hord
    have haccepts := Ty.accepts_of_same hsame
    rw [Emit.stmt]
    refine .entering fun s ops t hops σ hσ st => ?_
    simp only [Emit.Gen.bind_ok, Emit.Gen.pure_ok] at hops
    obtain ⟨top, _, -, exit, _, -, codeF, _, hF, codeL, _, hL, codeI, _, hI, codeB, _, hB, codeS, _, hS,
      rfl, rfl⟩ := hops
    simp only [emitted_append, Emit.emitted_asm]
    exact runs_for hσ hcounter hord hfc hlast (Ty.isOrdinal_of_same hsame' hord) hfl
      (runs_assign hσ hcounter hfirst hscalar haccepts hfc hff hF st)
      (fun τ hτ => assign_safe hτ hcounter hfirst hscalar haccepts hfc hff) hL hI
      (fun τ hτ => stmt_performs fuel body hbody hfb hB hτ st) (exec_safe fuel body hbody hfb) hS
      fuel

theorem stmts_performs (fuel : Nat) : (cs : List Stmt) → (h : StmtsWellTyped Γ cs) →
    (hfree : allCallFree cs = true) → Performs host Γ (Emit.stmts policy cs) (execAll host fuel cs)
  | [], _, _ => by
    rw [Emit.stmts]
    exact performs_nil
  | c :: cs, ⟨hc, hcs⟩, hfree => by
    rw [allCallFree, Bool.and_eq_true_iff] at hfree
    intro s ops t hops σ hσ st
    simp only [Emit.stmts, Emit.Gen.bind_ok, Emit.Gen.pure_ok] at hops
    obtain ⟨code, _, hcode, rest, _, hrest, rfl, rfl⟩ := hops
    rw [emitted_append, execAll]
    refine (stmt_performs fuel c hc hfree.1 hcode hσ st).append fun τ hτ => ?_
    have hwt := hσ.alike ((exec_safe fuel c hc hfree.1 hσ).of_ok hτ)
    exact stmts_performs fuel cs hcs hfree.2 hrest hwt st

theorem optional_performs (fuel : Nat) : (c : Option Stmt) → (h : OptionalWellTyped Γ c) →
    (hfree : optionalCallFree c = true) →
    Performs host Γ (Emit.optional policy c) (execOptional host fuel c)
  | none, _, _ => by
    rw [Emit.optional]
    exact performs_nil
  | some c, h, hfree => by
    rw [Emit.optional]
    exact stmt_performs fuel c h hfree

/-- Each branch ends in a jump to the end of the case statement. -/
theorem arms_follow (fuel : Nat) (done : Label) : (labels : List Label) →
    (branches : List (List Int32 × Stmt)) → (h : ArmsWellTyped Γ branches) →
    (hfree : armsCallFree branches = true) → {s t : Emit.Supply} → {ops : List Op} →
    (hops : Emit.arms policy done labels branches s = .ok (ops, t)) → {code : List Instr} →
    {p d : Nat} → (hn : (boundLabels code).Nodup) → (hcode : CodeAt code p (emitted ops)) →
    (hdone : code[d]? = some (.label done)) → {σ : Store} →
    (hσ : σ.WellTyped Γ.statics Γ.slots) → (st : List Value) →
    BranchesFollow host code fuel labels branches st σ d
  | [], _, _, _, _, _, _, _, _, _, _, _, _, _, _, _, _ => by simp [BranchesFollow]
  | _ :: _, [], _, _, _, _, _, _, _, _, _, _, _, _, _, _, _ => by simp [BranchesFollow]
  | l :: labels, (values, c) :: rest, ⟨_, hc, hrest⟩, hfree, s, t, ops, hops, code, p, d, hn, hcode,
      hdone, σ, hσ, st => by
    rw [armsCallFree, Bool.and_eq_true_iff] at hfree
    simp only [Emit.arms, Emit.Gen.bind_ok, Emit.Gen.pure_ok] at hops
    obtain ⟨codeB, _, hB, more, _, hmore, rfl, rfl⟩ := hops
    simp only [emitted_append, Emit.emitted_asm, List.append_assoc, List.cons_append,
      List.nil_append, codeAt_append, codeAt_cons] at hcode
    obtain ⟨hlabel, hbodyAt, hgoto, hmoreAt⟩ := hcode
    intro l' values' c' hmem
    rw [List.zip_cons_cons, List.mem_cons] at hmem
    rcases hmem with heq | hmem
    · cases heq
      refine ⟨p, hlabel, .step (step_label hlabel) ?_⟩
      exact (stmt_performs fuel c hc hfree.1 hB hσ st hn hbodyAt).finish fun τ =>
        step_goto hn hgoto hdone
    · exact arms_follow fuel done labels rest hrest hfree.2 hmore hn hmoreAt hdone hσ st l' values' c'
        hmem

end

end Run
end PascalJvm
