import Mathlib.Tactic
import PascalJvm.Compile
import PascalJvm.Proofs.Checking
import PascalJvm.Proofs.MethodFlow
import PascalJvm.Proofs.StatementRuns

/-!
# Generation from checked programs

A source text that is parsed, whose declarations are collected and that passes the checker
yields a well-typed program. From there, code generation ends in classes whose methods pass the
verifier; the one error that is left is a clash of case constants under the policy that rejects
it. Running the code of a statement does what the statement means.
-/
namespace PascalJvm

open Jvm Typed

/-- The stages before code generation. -/
lemma Compile.checked_ok {source : List Char} {q : Program} :
    (Compile.checked source).outcome = .ok q ↔ ∃ p env, Source.Program.parse source = .ok p ∧
      Environment.ofProgram p = .ok env ∧ (Check.program env p).outcome = .ok q := by
  simp only [Compile.checked, Traced.bind_ok, Traced.outcome_ofExcept, Traced.mapError,
    mapError_eq_ok]
  constructor
  · rintro ⟨p, hparse, env, henv, hcheck⟩
    exact ⟨p, env, hparse, henv, hcheck⟩
  · rintro ⟨p, env, hparse, henv, hcheck⟩
    exact ⟨p, hparse, env, henv, hcheck⟩

theorem wellTyped_of_checked {source : List Char} {p : Source.Program} {env : Environment}
    {q : Program} (hparse : Source.Program.parse source = .ok p)
    (henv : Environment.ofProgram p = .ok env) (hcheck : (Check.program env p).outcome = .ok q) :
    q.WellTyped :=
  Check.program_wellTyped henv (Source.Program.branched_of_parse hparse) hcheck

/-- Generation from a checked program never ends in an internal error: it gives classes, or two
branches of a case statement name one constant and the policy rejects that. -/
theorem generate_ok_or_duplicateConstant {source : List Char} {p : Source.Program}
    {env : Environment} {q : Program} (hparse : Source.Program.parse source = .ok p)
    (henv : Environment.ofProgram p = .ok env) (hcheck : (Check.program env p).outcome = .ok q)
    (policy : Emit.CasePolicy) :
    (∃ classes, (Emit.program policy q).outcome = .ok classes) ∨
      (policy = .reject ∧
        ∃ v, (Emit.program policy q).outcome = .error (.duplicateConstant v)) := by
  rcases Emit.program_ends "" (wellTyped_of_checked hparse henv hcheck) with
    ⟨classes, hclasses, -⟩ | ⟨e, he, hpolicy, v, rfl⟩
  · exact .inl ⟨classes, hclasses⟩
  · exact .inr ⟨hpolicy, v, he⟩

/-- A record, an array of records, a routine with a parameter by reference, and a case statement
that names a constant twice. -/
def clashSource : List Char :=
  ("program demo; type pair = record a: integer; b: real end; row = array[1..3] of pair; " ++
    "var xs: row; n: integer; procedure step(var k: integer); begin k := k + 1 end; " ++
    "begin n := 0; while n < 3 do step(n); xs[n].b := n; " ++
    "case n of 1, 2: n := 5; 2: n := 6 else n := 7 end end.").toList

/-- The text is accepted; its classes are one for the program and one for the record. -/
lemma clashSource_classes : ∃ p env q classes, Source.Program.parse clashSource = .ok p ∧
    Environment.ofProgram p = .ok env ∧ (Check.program env p).outcome = .ok q ∧
    (Emit.program .lastWins q).outcome = .ok classes ∧ classes.length = 2 := by
  have hlength : ((Compile.checked clashSource).outcome.toOption.bind fun q =>
      (Emit.program .lastWins q).outcome.toOption.map List.length) = some 2 := by decide +kernel
  obtain ⟨q, hq, hlength⟩ := Option.bind_eq_some_iff.mp hlength
  obtain ⟨classes, hclasses, hlength⟩ := Option.map_eq_some_iff.mp hlength
  rw [toOption_eq_some] at hq hclasses
  obtain ⟨p, env, hparse, henv, hcheck⟩ := Compile.checked_ok.mp hq
  exact ⟨p, env, q, classes, hparse, henv, hcheck, hclasses, hlength⟩

theorem generate_clashSource : ∃ p env q, Source.Program.parse clashSource = .ok p ∧
    Environment.ofProgram p = .ok env ∧ (Check.program env p).outcome = .ok q ∧
    ∀ policy, (∃ classes, (Emit.program policy q).outcome = .ok classes) ∨
      (policy = .reject ∧
        ∃ v, (Emit.program policy q).outcome = .error (.duplicateConstant v)) := by
  obtain ⟨p, env, q, -, hparse, henv, hcheck, -, -⟩ := clashSource_classes
  exact ⟨p, env, q, hparse, henv, hcheck, generate_ok_or_duplicateConstant hparse henv hcheck⟩

/-- Every method of every class that is generated from a checked program passes the verifier,
whatever the name of the program class, and the operations of the host that the verifier follows
are those of the listing. -/
theorem generated_methods_verified {source : List Char} {p : Source.Program} {env : Environment}
    {q : Program} (hparse : Source.Program.parse source = .ok p)
    (henv : Environment.ofProgram p = .ok env) (hcheck : (Check.program env p).outcome = .ok q)
    {policy : Emit.CasePolicy} {classes : List ClassFile}
    (hclasses : (Emit.program policy q).outcome = .ok classes) (name : String) :
    ∀ c ∈ classes, ∀ m ∈ c.methods, Verified name c.role m ∧
      ∀ ins ∈ m.code.instrs, ∀ ops, ins.host? name = some ops →
        ∀ label, ops.map HostOp.text = Listing.operation name label ins := by
  intro c hc m hm
  refine ⟨?_, fun ins _ ops hops label => Instr.host_text hops label⟩
  rcases Emit.program_ends name (wellTyped_of_checked hparse henv hcheck) with
    ⟨classes', hclasses', hverified⟩ | ⟨e, he, -⟩
  · rw [hclasses', Except.ok.injEq] at hclasses
    exact hverified c (hclasses ▸ hc) m hm
  · rw [he] at hclasses
    cases hclasses

theorem clashSource_methods_verified : ∃ q classes, (Compile.checked clashSource).outcome = .ok q ∧
    (Emit.program .lastWins q).outcome = .ok classes ∧ classes.length = 2 ∧
    ∀ c ∈ classes, ∀ m ∈ c.methods, Verified "demo" c.role m ∧
      ∀ ins ∈ m.code.instrs, ∀ ops, ins.host? "demo" = some ops →
        ∀ label, ops.map HostOp.text = Listing.operation "demo" label ins := by
  obtain ⟨p, env, q, classes, hparse, henv, hcheck, hclasses, hlength⟩ := clashSource_classes
  exact ⟨q, classes, Compile.checked_ok.mpr ⟨p, env, hparse, henv, hcheck⟩, hclasses, hlength,
    generated_methods_verified hparse henv hcheck hclasses "demo"⟩

open Run in
/-- Take any statement of a checked program in which nothing is called, read or written, and any
store in which the variables of its body are set. Its code, wherever it stands among distinct
labels and whatever is on the operand stack, comes to its end with that stack and with the store
that the statement means, and traps where the statement does. The statement itself is never
stuck. -/
theorem generated_code_performs_statement {source : List Char} {p : Source.Program}
    {env : Environment} {q : Program} (hparse : Source.Program.parse source = .ok p)
    (henv : Environment.ofProgram p = .ok env) (hcheck : (Check.program env p).outcome = .ok q)
    {body : Stmt} {slots : List ParamDesc} (hbody : (body, slots) ∈ q.bodies) {c : Stmt}
    (hc : c.Within body) (hfree : c.callFree = true) {policy : Emit.CasePolicy}
    {s t : Emit.Supply} {ops : List Op} (hops : Emit.stmt policy c s = .ok (ops, t))
    {before after : List Instr} (hn : (boundLabels (before ++ emitted ops ++ after)).Nodup)
    (host : Host) {σ : Store} (hσ : σ.WellTyped q.globals slots) (st : List Value) (fuel : Nat) :
    (∀ τ, exec host fuel c σ = .ok τ →
      Reaches host (before ++ emitted ops ++ after) ⟨before.length, st, σ⟩
        ⟨before.length + (emitted ops).length, st, τ⟩) ∧
    (∀ trap, exec host fuel c σ = .error (.trap trap) →
      Traps host (before ++ emitted ops ++ after) ⟨before.length, st, σ⟩ trap) ∧
    exec host fuel c σ ≠ .error .stuck := by
  obtain ⟨Γ, hstatics, rfl, hwt⟩ := (wellTyped_of_checked hparse henv hcheck).statement hbody hc
  rw [← hstatics] at hσ
  have hperforms : Performs host Γ (Emit.stmt policy c) _ := stmt_performs fuel c hwt hfree
  have hruns := hperforms hops hσ st hn (codeAt_of_append before after)
  exact ⟨fun τ hτ => hruns.reaches hτ, fun trap htrap => hruns.traps htrap,
    (exec_safe fuel c hwt hfree hσ).ne_stuck⟩

/-- A loop with a case statement in it, over an array that does not start at zero. -/
def rowSource : List Char :=
  ("program demo; type row = array[1..3] of integer; var xs: row; n: integer; " ++
    "begin for n := 1 to 3 do " ++
    "case n of 1: xs[n] := 7; 2, 3: xs[n] := xs[n - 1] div n end end.").toList

open Run in
/-- A host for programs without reals and texts. -/
def plainHost : Host where
  add x _ := x
  sub x _ := x
  mul x _ := x
  div x _ := x
  neg x := x
  ofInt _ := .zero
  compareReals _ _ := 0
  compareTexts _ _ := 0

open Run in
/-- The array is the one object of the heap. -/
def rowStore : Store where
  statics name := some (if name = "xs" then .ref 0 else .int 0)
  slots _ := none
  heap _ := some (.array [.int 0, .int 0, .int 0])

/-- What has to be known of the variables for `rowStore` to fit them. -/
def fitsRow (g : String × Ty) : Bool :=
  if g.1 = "xs" then (Ty.array 1 3 .integer).same g.2 else g.2.isOrdinal

open Run in
lemma rowStore_wellTyped {globals : List (String × Ty)} (h : globals.all fitsRow = true) :
    rowStore.WellTyped globals [] where
  slots hd := by cases hd
  statics {name t} ht := by
    have hfits : fitsRow (name, t) = true := by
      obtain ⟨before, after, rfl, -⟩ := List.lookup_eq_some_iff.mp ht
      exact List.all_eq_true.mp h _ (by simp)
    refine ⟨_, rfl, ?_⟩
    unfold fitsRow at hfits
    split_ifs at hfits with hname
    · cases t with
      | array low len elem =>
        simp only [Ty.same, Bool.and_eq_true, decide_eq_true_eq] at hfits
        obtain ⟨⟨rfl, rfl⟩, hsame⟩ := hfits
        obtain rfl := Ty.eq_of_same hsame rfl
        rw [if_pos hname, HasTy]
        exact ⟨_, rfl, rfl, by simp [HasTy]⟩
      | _ => cases hfits
    · rw [if_neg hname]
      exact hasTy_int hfits 0

open Run in
theorem rowSource_performed : ∃ q ops t τ, (Compile.checked rowSource).outcome = .ok q ∧
    Emit.stmt .reject q.body (.startingAt 1) = .ok (ops, t) ∧
    exec plainHost 4 q.body rowStore = .ok τ ∧ (τ.read (.element 0 2)).toOption = some (.int 1) ∧
    Reaches plainHost (emitted ops) ⟨0, [], rowStore⟩ ⟨(emitted ops).length, [], τ⟩ := by
  have hresult : ((Compile.checked rowSource).outcome.toOption.bind fun q =>
      (Emit.stmt .reject q.body (.startingAt 1)).toOption.bind fun r =>
        (exec plainHost 4 q.body rowStore).toOption.bind fun τ =>
          if q.body.callFree && q.globals.all fitsRow then (τ.read (.element 0 2)).toOption
          else none) = some (.int 1) := by decide +kernel
  obtain ⟨q, hq, hresult⟩ := Option.bind_eq_some_iff.mp hresult
  obtain ⟨⟨ops, t⟩, hops, hresult⟩ := Option.bind_eq_some_iff.mp hresult
  obtain ⟨τ, hτ, hresult⟩ := Option.bind_eq_some_iff.mp hresult
  rw [toOption_eq_some] at hq hops hτ
  split_ifs at hresult with hchecks
  obtain ⟨hfree, hfits⟩ := Bool.and_eq_true_iff.mp hchecks
  obtain ⟨p, env, hparse, henv, hcheck⟩ := Compile.checked_ok.mp hq
  have hn : (boundLabels ([] ++ emitted ops ++ [])).Nodup := by
    simpa using (Emit.stmt_spans .reject q.body _ _ _ hops).1.nodup
  have hreaches := (generated_code_performs_statement hparse henv hcheck List.mem_cons_self .refl
    hfree hops hn plainHost (rowStore_wellTyped hfits) [] 4).1 τ hτ
  exact ⟨q, ops, t, τ, hq, hops, hτ, hresult, by simpa using hreaches⟩

end PascalJvm
