import PascalJvm.Proofs.Checking
import PascalJvm.Proofs.StatementForms

/-!
# Checked statements

The checker keeps the form of a program. The parts of a checked statement are the checked parts,
one for one, and so every statement of a checked program comes from a statement of the program as it
is written, and every statement that is written has its checked form in it (`program_statements`).
What is to be shown of all statements of a checked program is shown of one statement at a time.
-/
namespace PascalJvm

lemma exists_right_of_forall₂ {α β : Type} {R : α → β → Prop} {xs : List α} {ys : List β}
    (h : List.Forall₂ R xs ys) {x : α} (hx : x ∈ xs) : ∃ y ∈ ys, R x y := by
  induction h with
  | nil => cases hx
  | cons hxy _ ih =>
    rcases List.mem_cons.mp hx with rfl | hx
    · exact ⟨_, List.mem_cons_self, hxy⟩
    · obtain ⟨y, hy, hr⟩ := ih hx
      exact ⟨y, List.mem_cons_of_mem _ hy, hr⟩

lemma exists_left_of_forall₂ {α β : Type} {R : α → β → Prop} {xs : List α} {ys : List β}
    (h : List.Forall₂ R xs ys) {y : β} (hy : y ∈ ys) : ∃ x ∈ xs, R x y :=
  exists_right_of_forall₂ h.flip hy

/-- The statement stands in the body of the program or of a routine. -/
def Source.Program.Has (p : Source.Program) (x : Source.Stmt) : Prop :=
  ∃ b ∈ p.block.blocks, x.Within b.body

/-- The statement stands in the body of the program or of a routine. -/
def Typed.Program.Has (q : Typed.Program) (y : Typed.Stmt) : Prop :=
  ∃ b ∈ q.bodies, y.Within b.1

namespace Check

open Typed

/-- The statement is checked in the scope with this result. -/
abbrev Scope.Checks (s : Scope) (x : Source.Stmt) (y : Stmt) : Prop := (stmt s x).outcome = .ok y

section Parts

variable {s : Scope} {x : Source.Stmt} {y : Stmt}

lemma stmts_checks {xs : List Source.Stmt} {ys : List Stmt} (h : (stmts s xs).outcome = .ok ys) :
    List.Forall₂ s.Checks xs ys := by
  induction xs generalizing ys with
  | nil =>
    cases h
    exact .nil
  | cons x xs ih =>
    simp only [stmts, Traced.bind_ok, Traced.outcome_pure, Except.ok.injEq] at h
    obtain ⟨y, hy, more, hmore, rfl⟩ := h
    exact .cons hy (ih hmore)

lemma optional_checks {o : Option Source.Stmt} {o' : Option Stmt}
    (h : (optional s o).outcome = .ok o') : List.Forall₂ s.Checks o.toList o'.toList := by
  cases o with
  | none =>
    cases h
    exact .nil
  | some x =>
    simp only [optional, Traced.bind_ok, Traced.outcome_pure, Except.ok.injEq] at h
    obtain ⟨y, hy, rfl⟩ := h
    exact .cons hy .nil

/-- A branch with its constants and its statement, as it is written and checked. -/
def Scope.ChecksArm (s : Scope) (selector : Ty) (arm : List Source.ConstExpr × Source.Stmt)
    (arm' : List Int32 × Stmt) : Prop :=
  List.Forall₂ (fun k i => caseConstant s selector k = .ok i) arm.1 arm'.1 ∧ s.Checks arm.2 arm'.2

lemma arms_checks {selector : Ty} {bs : List (List Source.ConstExpr × Source.Stmt)}
    {cs : List (List Int32 × Stmt)} (h : (arms s selector bs).outcome = .ok cs) :
    List.Forall₂ (s.ChecksArm selector) bs cs := by
  induction bs generalizing cs with
  | nil =>
    cases h
    exact .nil
  | cons arm bs ih =>
    simp only [arms, Traced.bind_ok, lift_outcome, Traced.outcome_pure, Except.ok.injEq] at h
    obtain ⟨constants, hconstants, y, hy, more, hmore, rfl⟩ := h
    exact .cons ⟨forall₂_of_mapM_eq_ok hconstants, hy⟩ (ih hmore)

/-- A statement keeps its form, and its parts are checked in the same scope. -/
inductive Scope.Keeps (s : Scope) : Source.Stmt → Stmt → Prop
  | compound {xs : List Source.Stmt} {ys : List Stmt} (h : List.Forall₂ s.Checks xs ys) :
      s.Keeps (.compound xs) (.compound ys)
  | assign (target : Source.Access) (value : Source.Expr) (d : Designator) (e : Expr) :
      s.Keeps (.assign target value) (.assign d e)
  | procedureCall (routine : String) (args : List Source.Expr) (sig : Signature) (as : List Arg) :
      s.Keeps (.call routine args) (.procedureCall sig as)
  | functionCall (routine : String) (args : List Source.Expr) (sig : Signature) (as : List Arg) :
      s.Keeps (.call routine args) (.functionCall sig as)
  | ifThen (cond : Source.Expr) (c : Expr) {yes : Source.Stmt} {y : Stmt}
      {no : Option Source.Stmt} {n : Option Stmt} (hyes : s.Checks yes y)
      (hno : List.Forall₂ s.Checks no.toList n.toList) :
      s.Keeps (.ifThen cond yes no) (.ifThen c y n)
  | caseOf (selector : Source.Expr) {e : Expr} {bs : List (List Source.ConstExpr × Source.Stmt)}
      {cs : List (List Int32 × Stmt)} {otherwise : Option Source.Stmt} {o : Option Stmt}
      (harms : List.Forall₂ (s.ChecksArm e.ty) bs cs)
      (hotherwise : List.Forall₂ s.Checks otherwise.toList o.toList) :
      s.Keeps (.caseOf selector bs otherwise) (.caseOf e cs o)
  | whileDo (cond : Source.Expr) (c : Expr) {body : Source.Stmt} {y : Stmt}
      (hbody : s.Checks body y) : s.Keeps (.whileDo cond body) (.whileDo c y)
  | repeatUntil (cond : Source.Expr) (c : Expr) {xs : List Source.Stmt} {ys : List Stmt}
      (hbody : List.Forall₂ s.Checks xs ys) : s.Keeps (.repeatUntil xs cond) (.repeatUntil ys c)
  | forDo (counter : String) (first last : Source.Expr) (d : Designator) (a b : Expr) (down : Bool)
      {body : Source.Stmt} {y : Stmt} (hbody : s.Checks body y) :
      s.Keeps (.forDo counter first last down body) (.forDo d a b down y)
  | read (line : Bool) (targets : List Source.Access) (ds : List Designator) :
      s.Keeps (.read line targets) (.read line ds)
  | write (line : Bool) (args : List Source.WriteArg) (as : List WriteArg) :
      s.Keeps (.write line args) (.write line as)

theorem keeps_of_checks (h : s.Checks x y) : s.Keeps x y := by
  cases x with
  | compound body =>
    simp only [Scope.Checks, stmt, Traced.bind_ok, Traced.outcome_pure, Except.ok.injEq] at h
    obtain ⟨ys, hys, rfl⟩ := h
    exact .compound (stmts_checks hys)
  | assign target value =>
    simp only [Scope.Checks, stmt, checkAssign, Traced.bind_ok, Traced.outcome_pure,
      Except.ok.injEq] at h
    obtain ⟨d, -, -, -, e, -, -, -, rfl⟩ := h
    exact .assign target value d e
  | call routine args =>
    simp only [Scope.Checks, stmt, checkCall, Traced.bind_ok, Traced.outcome_pure,
      Except.ok.injEq] at h
    obtain ⟨sig, -, -, -, as, -, rfl⟩ := h
    split_ifs
    · exact .functionCall routine args sig as
    · exact .procedureCall routine args sig as
  | ifThen cond yes no =>
    simp only [Scope.Checks, stmt, Traced.bind_ok, Traced.outcome_pure, Except.ok.injEq] at h
    obtain ⟨c, -, n, hn, y, hy, rfl⟩ := h
    exact .ifThen cond c hy (optional_checks hn)
  | caseOf selector bs otherwise =>
    simp only [Scope.Checks, stmt, Traced.bind_ok, Traced.outcome_pure, Except.ok.injEq] at h
    obtain ⟨e, -, -, -, cs, hcs, o, ho, rfl⟩ := h
    exact .caseOf selector (arms_checks hcs) (optional_checks ho)
  | whileDo cond body =>
    simp only [Scope.Checks, stmt, Traced.bind_ok, Traced.outcome_pure, Except.ok.injEq] at h
    obtain ⟨c, -, y, hy, rfl⟩ := h
    exact .whileDo cond c hy
  | repeatUntil body cond =>
    simp only [Scope.Checks, stmt, Traced.bind_ok, Traced.outcome_pure, Except.ok.injEq] at h
    obtain ⟨ys, hys, c, -, rfl⟩ := h
    exact .repeatUntil cond c (stmts_checks hys)
  | forDo counter first last down body =>
    simp only [Scope.Checks, stmt, Traced.bind_ok, Traced.outcome_pure, Except.ok.injEq] at h
    obtain ⟨d, -, a, -, b, -, y, hy, rfl⟩ := h
    exact .forDo counter first last d a b down hy
  | read line targets =>
    simp only [Scope.Checks, stmt, Traced.bind_ok, Traced.outcome_pure, Except.ok.injEq] at h
    obtain ⟨ds, -, rfl⟩ := h
    exact .read line targets ds
  | write line args =>
    simp only [Scope.Checks, stmt, Traced.bind_ok, Traced.outcome_pure, Except.ok.injEq] at h
    obtain ⟨as, -, rfl⟩ := h
    exact .write line args as

/-- The parts of a checked statement are the checked parts. -/
lemma parts_checks (h : s.Checks x y) : List.Forall₂ s.Checks x.parts y.parts := by
  cases keeps_of_checks h with
  | compound hbody | repeatUntil _ _ hbody => exact hbody
  | ifThen _ _ hyes hno => exact .cons hyes hno
  | caseOf _ harms hotherwise =>
    refine List.rel_append ?_ hotherwise
    exact List.rel_map (fun _ _ harm => harm.2) harms
  | whileDo _ _ hbody | forDo _ _ _ _ _ _ _ hbody => exact .cons hbody .nil
  | assign | procedureCall | functionCall | read | write => exact .nil

lemma exists_written_of_within (h : s.Checks x y) {y' : Stmt} (hy' : y'.Within y) :
    ∃ x' : Source.Stmt, x'.Within x ∧ s.Checks x' y' := by
  induction hy' using Relation.ReflTransGen.head_induction_on with
  | refl => exact ⟨x, .refl, h⟩
  | head hpart _ ih =>
    obtain ⟨x', hx', hchecks⟩ := ih
    obtain ⟨x'', hmem, hx''⟩ := exists_left_of_forall₂ (parts_checks hchecks) hpart
    exact ⟨x'', .head hmem hx', hx''⟩

lemma exists_checked_of_within (h : s.Checks x y) {x' : Source.Stmt} (hx' : x'.Within x) :
    ∃ y' : Stmt, y'.Within y ∧ s.Checks x' y' := by
  induction hx' using Relation.ReflTransGen.head_induction_on with
  | refl => exact ⟨y, .refl, h⟩
  | head hpart _ ih =>
    obtain ⟨y', hy', hchecks⟩ := ih
    obtain ⟨y'', hmem, hy''⟩ := exists_right_of_forall₂ (parts_checks hchecks) hpart
    exact ⟨y'', .head hmem hy', hy''⟩

end Parts

section Programs

variable {env : Environment}

/-- The statement is checked in some scope of the environment with this result. -/
def CheckedIn (env : Environment) (x : Source.Stmt) (y : Stmt) : Prop :=
  ∃ s : Scope, s.env = env ∧ s.Checks x y

lemma routine_checkedIn {path : ScopePath} {visible : List (String × ScopePath)}
    {h : Source.Heading} {vars : List (String × Source.TypeRef)} {body : Source.Stmt} {r : Routine}
    (hr : (routine env path visible h vars body).outcome = .ok r) : CheckedIn env body r.body := by
  unfold routine at hr
  split at hr
  next => cases hr
  next sig hsig =>
    simp only [Traced.bind_ok, Traced.outcome_pure, Except.ok.injEq] at hr
    obtain ⟨-, -, -, -, ⟨result, f⟩, -, checked, hchecked, -, -, rfl⟩ := hr
    exact ⟨_, rfl, hchecked⟩

mutual

theorem nested_checkedIn (path : ScopePath) (outer : List (String × ScopePath)) (h : Source.Heading)
    (b : Source.Block) {rs : List Routine} (hr : (nested env path outer h b).outcome = .ok rs) :
    List.Forall₂ (fun b r => CheckedIn env b.body r.body) b.blocks rs := by
  match b with
  | ⟨consts, types, vars, inner, body⟩ =>
    simp only [nested, Traced.bind_ok, Traced.outcome_pure, Except.ok.injEq] at hr
    obtain ⟨own, hown, rest, hrest, rfl⟩ := hr
    exact .cons (routine_checkedIn hown) (routines_checkedIn path _ inner hrest)

theorem routines_checkedIn (path : ScopePath) (visible : List (String × ScopePath))
    (bs : List (Source.Heading × Source.Block)) {rs : List Routine}
    (hr : (routines env path visible bs).outcome = .ok rs) :
    List.Forall₂ (fun b r => CheckedIn env b.body r.body) (Source.blocksOf bs) rs := by
  match bs with
  | [] =>
    cases hr
    exact .nil
  | (h, b) :: rest =>
    simp only [routines, Traced.bind_ok, Traced.outcome_pure, Except.ok.injEq] at hr
    obtain ⟨own, hown, more, hmore, rfl⟩ := hr
    exact List.rel_append (nested_checkedIn _ visible h b hown)
      (routines_checkedIn path visible rest hmore)

end

lemma bodies_checkedIn {p : Source.Program} {q : Program} (h : (program env p).outcome = .ok q) :
    List.Forall₂ (fun b c => CheckedIn env b.body c.1) p.block.blocks q.bodies := by
  simp only [program, Traced.bind_ok, Traced.outcome_pure, Except.ok.injEq] at h
  obtain ⟨rs, hrs, body, hbody, rfl⟩ := h
  have hblocks : p.block.blocks = p.block :: Source.blocksOf p.block.routines := by
    cases p.block
    rfl
  rw [hblocks]
  refine .cons ⟨_, rfl, hbody⟩ (List.forall₂_map_right_iff.mpr ?_)
  exact routines_checkedIn [] _ p.block.routines hrs

/-- The statements of a checked program are the checked statements of the program. -/
theorem program_statements {p : Source.Program} {q : Program}
    (h : (program env p).outcome = .ok q) :
    (∀ y, q.Has y → ∃ x, p.Has x ∧ CheckedIn env x y) ∧
      ∀ x, p.Has x → ∃ y, q.Has y ∧ CheckedIn env x y := by
  have hbodies := bodies_checkedIn h
  constructor
  · rintro y ⟨c, hc, hy⟩
    obtain ⟨b, hb, s, rfl, hbody⟩ := exists_left_of_forall₂ hbodies hc
    obtain ⟨x, hx, hxy⟩ := exists_written_of_within hbody hy
    exact ⟨x, ⟨b, hb, hx⟩, s, rfl, hxy⟩
  · rintro x ⟨b, hb, hx⟩
    obtain ⟨c, hc, s, rfl, hbody⟩ := exists_right_of_forall₂ hbodies hb
    obtain ⟨y, hy, hxy⟩ := exists_checked_of_within hbody hx
    exact ⟨y, ⟨c, hc, hy⟩, s, rfl, hxy⟩

end Programs

end Check
end PascalJvm
