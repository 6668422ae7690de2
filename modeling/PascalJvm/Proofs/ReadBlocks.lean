import Mathlib.Tactic
import PascalJvm.Proofs.CheckedStatements
import PascalJvm.Proofs.Construction
import PascalJvm.Proofs.References

/-!
# Where code reads

The code of a statement is laid out in blocks (`ReadsInto`): one for each target of a read
statement, in the order of the code, and plain code around them that reads no value. The block of a
target has the address of its place first, which leaves the scanner alone, and then the code that
reads the value and stores it.
-/
namespace PascalJvm

open Jvm Typed

namespace Typed

mutual

/-- The targets of the read statements, in the order of the code: the else part of an `if` comes
before its then part. -/
def Stmt.targets : Stmt → List Designator
  | .compound body | .repeatUntil body _ => targetsOfAll body
  | .ifThen _ yes no => targetsOfOptional no ++ yes.targets
  | .caseOf _ branches otherwise => targetsOfArms branches ++ targetsOfOptional otherwise
  | .whileDo _ body | .forDo _ _ _ _ body => body.targets
  | .read _ targets => targets
  | _ => []

def targetsOfAll : List Stmt → List Designator
  | [] => []
  | c :: rest => c.targets ++ targetsOfAll rest

def targetsOfOptional : Option Stmt → List Designator
  | none => []
  | some c => c.targets

def targetsOfArms : List (List Int32 × Stmt) → List Designator
  | [] => []
  | (_, c) :: rest => c.targets ++ targetsOfArms rest

end

end Typed

/-- The operation leaves the scanner and its input alone. -/
def Jvm.Primitive.silent : Primitive → Bool
  | .openInput | .readInt | .readFloat | .readBool | .readToken | .readLine | .useDelimiter
  | .resetDelimiter => false
  | _ => true

def Jvm.Instr.silent : Instr → Bool
  | .invoke p => p.silent
  | _ => true

/-- The instruction reads no value, and it leaves the standard delimiter as it is. -/
def Jvm.Instr.quiet : Instr → Bool
  | .invoke .openInput | .invoke .readLine => true
  | ins => ins.silent

lemma Jvm.Instr.quiet_of_silent {ins : Instr} (h : ins.silent = true) : ins.quiet = true := by
  unfold Instr.quiet
  split
  · rfl
  · rfl
  · exact h

namespace Emit

/-- Code that leaves the scanner alone. -/
def Silent (code : List Instr) : Prop := ∀ ins ∈ code, ins.silent = true

@[simp] theorem silent_nil : Silent [] := by simp [Silent]

@[simp] theorem silent_cons {ins : Instr} {code : List Instr} :
    Silent (ins :: code) ↔ ins.silent = true ∧ Silent code :=
  List.forall_mem_cons

@[simp] theorem silent_append {code code' : List Instr} :
    Silent (code ++ code') ↔ Silent code ∧ Silent code' :=
  List.forall_mem_append

section Expressions

@[simp] theorem silent_widen (target value : Ty) : Silent (widen target value) := by
  unfold widen
  split_ifs <;> simp [Instr.silent]

@[simp] theorem silent_widenTo (kind : Kind) (value : Ty) : Silent (widenTo kind value) := by
  unfold widenTo
  split_ifs <;> simp [Instr.silent]

@[simp] theorem silent_compare (r : Relation) (a b : Ty) (yes : Label) :
    Silent (compare r a b yes) := by
  unfold compare
  split_ifs <;> simp [Instr.silent, Primitive.silent]

@[simp] theorem silent_rebase (low : Int32) : Silent (rebase low) := by
  unfold rebase
  split_ifs <;> simp [Instr.silent]

@[simp] theorem silent_symbolAddress (v : Symbol) : Silent (symbolAddress v) := by
  unfold symbolAddress
  split <;> simp [Instr.silent]

@[simp] theorem silent_wrap (t : Ty) : Silent (wrap t) := by
  unfold wrap
  split <;> simp [Instr.silent, Primitive.silent]

@[simp] theorem silent_loadSymbol (v : Symbol) (ty : Ty) : Silent (loadSymbol v ty) := by
  unfold loadSymbol
  split <;> simp [Instr.silent]

@[simp] theorem silent_store (ty : Ty) (p : Place) : Silent (store ty p) := by
  unfold store
  split
  · split <;> simp [Instr.silent]
  · simp [Instr.silent]
  · simp [Instr.silent]

lemma loadObject_silent (v : Symbol) : Gives Silent (loadObject v) := by
  unfold loadObject
  split
  · exact .pure (by simp [Instr.silent])
  · exact .pure (by simp [Instr.silent])
  · exact .throw

lemma loadVia_silent {walk : Gen (List Instr)} {ty : Ty} {p : Place} (hwalk : Gives Silent walk) :
    Gives Silent (loadVia walk ty p) := by
  cases p with
  | root v => exact .pure (silent_loadSymbol v ty)
  | field => exact hwalk
  | element => exact hwalk

lemma relation_silent {r : Relation} {tyA tyB : Ty} {a b : Gen (List Instr)}
    (ha : Gives Silent a) (hb : Gives Silent b) : Gives Silent (relation r tyA tyB a b) :=
  .after fun _ => .after fun _ => .bind ha fun _ hA => .bind hb fun _ hB =>
    .pure (by simp [hA, hB, Instr.silent])

lemma arithmetic_silent {op : BinOp} {ty tyA tyB : Ty} {a b : Gen (List Instr)}
    (ha : Gives Silent a) (hb : Gives Silent b) : Gives Silent (arithmetic op ty tyA tyB a b) :=
  .bind ha fun _ hA => .bind hb fun _ hB => .pure (by simp [hA, hB, Instr.silent])

lemma passRef_silent {ty : Ty} {place : Place} {load : Gen (List Instr)} (h : Gives Silent load) :
    Gives (fun r => Silent r.1) (passRef ty place load) := by
  unfold passRef
  split_ifs
  · exact .bind h fun _ hcode => .pure hcode
  · split
    · exact .pure (by simp [Instr.silent])
    · have hcell : Gives (fun r => Silent r.1) (intoCell ty load) :=
        .after fun _ => .bind h fun _ hcode => .pure (by simp [hcode, Instr.silent])
      exact .bind hcell fun _ hcode => .pure hcode

lemma invocation_silent {callee : Signature} {count : Nat}
    {push : Gen (List Instr × List (Option Nat))} {back : List (Option Nat) → Gen (List Instr)}
    (hpush : Gives (fun r => Silent r.1) push) (hback : ∀ cells, Gives Silent (back cells)) :
    Gives Silent (invocation callee count push back) := by
  unfold invocation
  split_ifs
  · exact .after fun _ => .releasing (.bind hpush fun _ hargs => .bind (hback _) fun _ hstore =>
      .pure (by simp [hargs, hstore, Instr.silent]))
  · exact .releasing (.bind hpush fun _ hargs => .bind (hback _) fun _ hstore =>
      .pure (by simp [hargs, hstore, Instr.silent]))

mutual

/-- An expression reads no input itself, whatever it calls. -/
theorem expr_silent : (e : Expr) → Gives Silent (expr e)
  | .int _ _ | .real _ _ | .text _ _ => .pure (by simp [Instr.silent])
  | .read _ place _ => by
    rw [expr]
    exact loadVia_silent (path_silent place)
  | .call _ callee args => by
    rw [expr]
    exact invocation_silent (pushArgs_silent callee.params args) fun cells =>
      copyBack_silent cells args
  | .unary _ .neg x => by
    rw [expr]
    exact .bind (expr_silent x) fun _ hx => .pure (by simp [hx, Instr.silent])
  | .unary _ .not x => by
    rw [expr]
    exact .bind (expr_silent x) fun _ hx => .pure (by simp [hx, Instr.silent])
  | .binary _ op a b => by
    rw [expr]
    split
    · exact relation_silent (expr_silent a) (expr_silent b)
    · exact arithmetic_silent (expr_silent a) (expr_silent b)

theorem path_silent : (p : Place) → Gives Silent (path p)
  | .root v => by
    rw [path]
    exact loadObject_silent v
  | .field base record name ty => by
    rw [path]
    exact .bind (path_silent base) fun _ hbase => .pure (by simp [hbase, Instr.silent])
  | .element base index low elem => by
    rw [path]
    exact .bind (path_silent base) fun _ hbase => .bind (expr_silent index) fun _ hindex =>
      .pure (by simp [hbase, hindex, Instr.silent])

theorem address_silent : (p : Place) → Gives Silent (address p)
  | .root v => by
    rw [address]
    exact .pure (silent_symbolAddress v)
  | .field base record name ty => by
    rw [address]
    exact path_silent base
  | .element base index low elem => by
    rw [address]
    exact .bind (path_silent base) fun _ hbase => .bind (expr_silent index) fun _ hindex =>
      .pure (by simp [hbase, hindex])

theorem pushArgs_silent : (params : List Passing) → (args : List Arg) →
    Gives (fun r => Silent r.1) (pushArgs params args)
  | p :: params, .value e :: args => by
    rw [pushArgs]
    exact .bind (expr_silent e) fun _ hcode => .bind (pushArgs_silent params args) fun _ hrest =>
      .pure (by simp [hcode, hrest])
  | p :: params, .ref place ty :: args => by
    rw [pushArgs]
    exact .bind (passRef_silent (loadVia_silent (path_silent place))) fun _ hcode =>
      .bind (pushArgs_silent params args) fun _ hrest => .pure (by simp [hcode, hrest])
  | [], _ => by
    rw [pushArgs]
    · exact .pure silent_nil
    all_goals nofun
  | _ :: _, [] => by
    rw [pushArgs]
    · exact .pure silent_nil
    all_goals nofun

theorem copyBack_silent : (cells : List (Option Nat)) → (args : List Arg) →
    Gives Silent (copyBack cells args)
  | some cell :: cells, .ref place ty :: args => by
    rw [copyBack]
    exact .bind (address_silent place) fun _ haddress => .bind (copyBack_silent cells args)
      fun _ hrest => .pure (by simp [outOfCell, haddress, hrest, Instr.silent])
  | none :: cells, .ref place ty :: args => by
    rw [copyBack]
    · exact copyBack_silent cells args
    · nofun
  | _ :: cells, .value e :: args => by
    rw [copyBack]
    · exact copyBack_silent cells args
    · nofun
  | [], _ => by
    rw [copyBack]
    · exact .pure silent_nil
    all_goals nofun
  | _ :: _, [] => by
    rw [copyBack]
    · exact .pure silent_nil
    all_goals nofun

end

lemma call_silent (callee : Signature) (args : List Arg) : Gives Silent (call callee args) :=
  invocation_silent (pushArgs_silent _ args) fun cells => copyBack_silent cells args

lemma load_silent (d : Designator) : Gives Silent (load d) := loadVia_silent (path_silent d.place)

lemma assign_silent (target : Designator) (value : Expr) : Gives Silent (assign target value) :=
  .bind (address_silent target.place) fun _ haddress => .bind (expr_silent value) fun _ hvalue =>
    .pure (by simp [haddress, hvalue])

lemma stepCounter_silent (counter : Designator) (down : Bool) :
    Gives Silent (stepCounter counter down) :=
  .bind (address_silent counter.place) fun _ haddress => .bind (load_silent counter) fun _ hload =>
    .pure (by simp [haddress, hload, Instr.silent])

lemma fillObjects_silent (n : Nat) (es : List Expr) : Gives Silent (fillObjects n es) := by
  induction es generalizing n with
  | nil => exact .pure silent_nil
  | cons e es ih =>
    exact .bind (expr_silent e) fun _ hcode => .bind (ih _) fun _ hrest =>
      .pure (by simp [hcode, hrest, Instr.silent])

lemma write_silent (line : Bool) (args : List WriteArg) : Gives Silent (write line args) := by
  unfold write
  split_ifs
  · exact .pure (by simp [Instr.silent, Primitive.silent])
  · exact .pure silent_nil
  · dsimp only
    rcases writtenValues args with _ | ⟨e, es⟩
    · exact .pure (by simp [Instr.silent, Primitive.silent])
    · exact .bind (fillObjects_silent 0 (e :: es)) fun _ hcode =>
        .pure (by simp [hcode, Instr.silent, Primitive.silent])

lemma initial_silent (ty : Ty) : Gives Silent (initial ty) := by
  induction ty using initial.induct with
  | case6 low len elem href ih =>
    simp only [initial, href, if_true]
    refine .bind (P := Silent) (.releasing ?_) fun _ hfill => .pure (by simp [Instr.silent, hfill])
    exact .after fun _ => .after fun _ => .after fun _ => .after fun _ => .bind ih fun _ hcode =>
      .pure (by simp [hcode, Instr.silent])
  | case7 low len elem href =>
    simp only [initial, href, if_false]
    exact .pure (by simp [Instr.silent])
  | _ =>
    simp only [initial]
    exact .pure (by simp [Instr.silent])

lemma initFields_silent (record : String) (fields : List (String × Ty)) :
    Gives Silent (initFields record fields) := by
  induction fields with
  | nil => exact .pure silent_nil
  | cons field rest ih =>
    unfold initFields
    split_ifs
    · exact .bind (initial_silent field.2) fun _ hcode => .bind ih fun _ hmore =>
        .pure (by simp [hcode, hmore, Instr.silent])
    · exact ih

lemma initGlobals_silent (globals : List (String × Ty)) : Gives Silent (initGlobals globals) := by
  induction globals with
  | nil => exact .pure silent_nil
  | cons global rest ih =>
    exact .bind (initial_silent global.2) fun _ hcode => .bind ih fun _ hmore =>
      .pure (by simp [hcode, hmore, Instr.silent])

lemma initLocals_silent (vars : List Local) : Gives Silent (initLocals vars) := by
  induction vars with
  | nil => exact .pure silent_nil
  | cons v rest ih =>
    exact .bind (initial_silent v.ty) fun _ hcode => .bind ih fun _ hmore =>
      .pure (by simp [hcode, hmore, Instr.silent])

@[simp] theorem silent_leave (result : Option Local) : Silent (leave result) := by
  cases result <;> simp [leave, Instr.silent]

end Expressions

section Blocks

/-- A stretch of code: one that reads no value, or the code of one target of a read statement. -/
inductive Block
  | quiet (code : List Instr)
  | target (d : Designator) (codeAddress : List Instr)

/-- What follows the address of a target. -/
def readInto (d : Designator) : List Instr := if d.ty.is .char then readChar d else readValue d

namespace Block

def code : Block → List Instr
  | quiet code => code
  | target d codeAddress => codeAddress ++ readInto d

def target? : Block → Option Designator
  | quiet _ => none
  | target d _ => some d

/-- A target is of a basic type, and its address is what is generated for its place. -/
def Legal : Block → Prop
  | quiet code => ∀ ins ∈ code, ins.quiet = true
  | target d codeAddress => d.ty.isBasic = true ∧ ∃ s t, address d.place s = .ok (codeAddress, t)

end Block

/-- The code reads into these targets, in this order, and into no others. -/
def ReadsInto (targets : List Designator) (code : List Instr) : Prop :=
  ∃ blocks : List Block, code = blocks.flatMap Block.code ∧
    blocks.filterMap Block.target? = targets ∧ ∀ b ∈ blocks, b.Legal

namespace ReadsInto

lemma quiet {code : List Instr} (h : ∀ ins ∈ code, ins.quiet = true) : ReadsInto [] code :=
  ⟨[.quiet code], by simp [Block.code], rfl, by simpa [Block.Legal] using h⟩

lemma silent {code : List Instr} (h : Silent code) : ReadsInto [] code :=
  quiet fun ins hins => Instr.quiet_of_silent (h ins hins)

lemma target {d : Designator} {codeAddress : List Instr} {s t : Supply} (hd : d.ty.isBasic = true)
    (h : address d.place s = .ok (codeAddress, t)) : ReadsInto [d] (codeAddress ++ readInto d) :=
  ⟨[.target d codeAddress], by simp [Block.code], rfl, by simpa [Block.Legal, hd] using ⟨s, t, h⟩⟩

lemma append {ts us : List Designator} {code code' : List Instr} (h : ReadsInto ts code)
    (h' : ReadsInto us code') : ReadsInto (ts ++ us) (code ++ code') := by
  obtain ⟨bs, rfl, rfl, hbs⟩ := h
  obtain ⟨cs, rfl, rfl, hcs⟩ := h'
  exact ⟨bs ++ cs, by simp, by simp, List.forall_mem_append.mpr ⟨hbs, hcs⟩⟩

end ReadsInto

end Blocks

section Statements

variable {Γ : Variables} {policy : CasePolicy}

/-- The operations emit code that reads into these targets. -/
def ReadsOps (targets : List Designator) (ops : List Op) : Prop := ReadsInto targets (emitted ops)

lemma ReadsOps.asm {targets : List Designator} {code : List Instr} (h : ReadsInto targets code) :
    ReadsOps targets (asm code) := by
  rwa [ReadsOps, emitted_asm]

lemma ReadsOps.silent {code : List Instr} (h : Silent code) : ReadsOps [] (Emit.asm code) :=
  .asm (.silent h)

lemma ReadsOps.append {ts us : List Designator} {xs ys : List Op} (h : ReadsOps ts xs)
    (h' : ReadsOps us ys) : ReadsOps (ts ++ us) (xs ++ ys) := by
  rw [ReadsOps, emitted_append]
  exact ReadsInto.append h h'

lemma entering_reads {targets : List Designator} {kind : String} {x : Gen (List Op)}
    (h : Gives (ReadsOps targets) x) : Gives (ReadsOps targets) (entering kind x) :=
  .bind h fun _ hops => .pure hops

lemma asm_silent {x : Gen (List Instr)} (h : Gives Silent x) :
    Gives (ReadsOps []) (do return asm (← x)) :=
  .bind h fun _ hcode => .pure (.silent hcode)

lemma readTarget_reads {d : Designator} (hd : d.ty.isBasic = true) :
    Gives (ReadsInto [d]) (readTarget d) := by
  intro s code t h
  simp only [readTarget, Gen.bind_ok, Gen.pure_ok] at h
  obtain ⟨codeAddress, u, hcode, rfl, rfl⟩ := h
  exact .target hd hcode

lemma readTargets_reads {ds : List Designator} (h : ∀ d ∈ ds, d.ty.isBasic = true) :
    Gives (ReadsInto ds) (readTargets ds) := by
  induction ds with
  | nil => exact .pure (.silent silent_nil)
  | cons d ds ih =>
    obtain ⟨hd, hds⟩ := List.forall_mem_cons.mp h
    exact .bind (readTarget_reads hd) fun _ hcode => .bind (ih hds) fun _ hrest =>
      .pure (hcode.append hrest)

lemma read_reads {line : Bool} {ds : List Designator} (h : ∀ d ∈ ds, d.ty.isBasic = true) :
    Gives (ReadsInto ds) (read line ds) := by
  refine .bind (readTargets_reads h) fun _ hcode => .pure ?_
  have hend : ReadsInto [] (if line then skipLine else []) :=
    .quiet (by split_ifs <;> simp [skipLine, Instr.quiet, Instr.silent, Primitive.silent])
  simpa using hcode.append hend

lemma caseTable_length {table : CaseTable} {values : List (List Int32)} :
    Gives (fun r => r.1.length = values.length) (caseTable policy table values) := by
  intro s r t h
  rw [(caseTable_ok h).1, List.length_range']

mutual

/-- The code of a statement reads into the targets of its read statements. -/
theorem stmt_reads : {c : Stmt} → (h : c.WellTyped Γ) →
    Gives (ReadsOps c.targets) (stmt policy c)
  | .empty, _ => entering_reads (.pure (ReadsOps.silent silent_nil))
  | .compound body, h => by
    rw [stmt, Stmt.targets]
    exact entering_reads (stmts_reads h)
  | .assign target value, _ => by
    rw [stmt]
    exact entering_reads (asm_silent (assign_silent target value))
  | .ifThen cond yes no, ⟨_, hyes, hno⟩ => by
    rw [stmt, Stmt.targets]
    refine entering_reads (.after fun yesLabel => .after fun done =>
      .bind (expr_silent cond) fun codeCond hcond => .bind (optional_reads hno) fun _ hcodeNo =>
      .bind (stmt_reads hyes) fun _ hcodeYes => .pure ?_)
    have htest : ReadsOps [] (asm (codeCond ++ [.ifZero .ne yesLabel])) :=
      .silent (by simp [hcond, Instr.silent])
    have hturn : ReadsOps [] (asm [.goto done, .label yesLabel]) := .silent (by simp [Instr.silent])
    have hend : ReadsOps [] (asm [.label done]) := .silent (by simp [Instr.silent])
    simpa using (((htest.append hcodeNo).append hturn).append hcodeYes).append hend
  | .caseOf selector branches otherwise, ⟨_, _, harms, hotherwise⟩ => by
    rw [stmt, Stmt.targets]
    refine entering_reads (.after fun done => .bind caseTable_length fun table htable =>
      .after fun default => .bind (expr_silent selector) fun codeSelector hselector =>
      .bind (arms_reads harms (by simpa using htable)) fun _ hcodeArms =>
      .bind (optional_reads hotherwise) fun _ hcodeDefault => .pure ?_)
    have hswitch : ReadsOps [] (asm (codeSelector ++ [.lookupSwitch table.2 default])) :=
      .silent (by simp [hselector, Instr.silent])
    have hmark : ReadsOps [] (asm (if otherwise.isSome then [.label default] else [])) :=
      .silent (by split_ifs <;> simp [Instr.silent])
    have hend : ReadsOps [] (asm [.label done]) := .silent (by simp [Instr.silent])
    simpa using (((hswitch.append hcodeArms).append hmark).append hcodeDefault).append hend
  | .repeatUntil body cond, ⟨hbody, _⟩ => by
    rw [stmt, Stmt.targets]
    refine entering_reads (.after fun top => .after fun exit =>
      .bind (stmts_reads hbody) fun _ hcodeBody =>
      .bind (expr_silent cond) fun codeCond hcond => .pure ?_)
    have hstart : ReadsOps [] (asm [.label top]) := .silent (by simp [Instr.silent])
    have hend : ReadsOps [] (asm (codeCond ++ [.ifZero .ne exit, .goto top, .label exit])) :=
      .silent (by simp [hcond, Instr.silent])
    simpa using (hstart.append hcodeBody).append hend
  | .whileDo cond body, ⟨_, hbody⟩ => by
    rw [stmt, Stmt.targets]
    refine entering_reads (.after fun top => .after fun exit =>
      .bind (expr_silent cond) fun codeCond hcond =>
      .bind (stmt_reads hbody) fun _ hcodeBody => .pure ?_)
    have hstart : ReadsOps [] (asm ([.label top] ++ codeCond ++ [.ifZero .eq exit])) :=
      .silent (by simp [hcond, Instr.silent])
    have hend : ReadsOps [] (asm [.goto top, .label exit]) := .silent (by simp [Instr.silent])
    simpa using (hstart.append hcodeBody).append hend
  | .forDo counter first last down body, ⟨_, _, _, _, _, _, hbody, _⟩ => by
    rw [stmt, Stmt.targets]
    refine entering_reads (.after fun top => .after fun exit =>
      .bind (assign_silent counter first) fun codeFirst hfirst =>
      .bind (expr_silent last) fun codeLast hlast =>
      .bind (load_silent counter) fun codeCounter hcounter =>
      .bind (stmt_reads hbody) fun _ hcodeBody =>
      .bind (stepCounter_silent counter down) fun codeStep hstep => .pure ?_)
    have hstart : ReadsOps [] (asm (codeFirst ++ [.label top] ++ codeLast ++ codeCounter ++
        [.ifCompare (if down then .gt else .lt) exit])) :=
      .silent (by simp [hfirst, hlast, hcounter, Instr.silent])
    have hend : ReadsOps [] (asm (codeStep ++ [.goto top, .label exit])) :=
      .silent (by simp [hstep, Instr.silent])
    simpa using (hstart.append hcodeBody).append hend
  | .procedureCall callee args, _ => by
    rw [stmt]
    exact entering_reads (asm_silent (call_silent callee args))
  | .functionCall callee args, _ => by
    rw [stmt]
    exact entering_reads (.bind (call_silent callee args) fun _ hcode =>
      .pure (ReadsOps.silent (by simp [hcode, Instr.silent])))
  | .write line args, _ => by
    rw [stmt]
    exact entering_reads (asm_silent (write_silent line args))
  | .read line targets, h => by
    rw [stmt, Stmt.targets]
    exact entering_reads (.bind (read_reads fun d hd => (h d hd).2) fun _ hcode =>
      .pure (.asm hcode))

theorem stmts_reads : {cs : List Stmt} → (h : StmtsWellTyped Γ cs) →
    Gives (ReadsOps (targetsOfAll cs)) (stmts policy cs)
  | [], _ => .pure (ReadsOps.silent silent_nil)
  | c :: cs, ⟨h, hs⟩ => by
    rw [stmts, targetsOfAll]
    exact .bind (stmt_reads h) fun _ hcode => .bind (stmts_reads hs) fun _ hrest =>
      .pure (hcode.append hrest)

theorem optional_reads : {c : Option Stmt} → (h : OptionalWellTyped Γ c) →
    Gives (ReadsOps (targetsOfOptional c)) (optional policy c)
  | none, _ => .pure (ReadsOps.silent silent_nil)
  | some c, h => by
    rw [optional, targetsOfOptional]
    exact stmt_reads h

theorem arms_reads : {branches : List (List Int32 × Stmt)} → {done : Label} →
    {labels : List Label} → (h : ArmsWellTyped Γ branches) →
    (hl : labels.length = branches.length) →
    Gives (ReadsOps (targetsOfArms branches)) (arms policy done labels branches)
  | [], _, [], _, _ => .pure (ReadsOps.silent silent_nil)
  | (values, c) :: rest, done, l :: labels, ⟨_, h, hs⟩, hl => by
    rw [arms, targetsOfArms]
    refine .bind (stmt_reads h) fun _ hcode =>
      .bind (arms_reads hs (Nat.succ.inj hl)) fun _ hrest => .pure ?_
    have hstart : ReadsOps [] (asm [.label l]) := .silent (by simp [Instr.silent])
    have hjump : ReadsOps [] (asm [.goto done]) := .silent (by simp [Instr.silent])
    simpa using ((hstart.append hcode).append hjump).append hrest

end

end Statements

section Methods

variable {policy : CasePolicy} {q : Program} {m : Method}

/-- The targets of the body that a method is made from. A constructor has no body. -/
inductive TargetsOf (q : Program) : MethodRole → List Designator → Prop
  | constructor : TargetsOf q .constructor []
  | main : TargetsOf q .main q.body.targets
  | routine {r : Routine} (hr : r ∈ q.routines) :
      TargetsOf q (.routine (.ofSignature r.signature)) r.body.targets

/-- The code of a method reads into the targets of its body, and the main method opens the
input first. -/
structure MethodReads (q : Program) (m : Method) (targets : List Designator) : Prop where
  targetsOf : TargetsOf q m.role targets
  reads : ReadsInto targets m.code.instrs
  opens : m.role = .main → m.code.instrs[0]? = some (.invoke .openInput)

lemma programConstructor_reads (h : programConstructor.outcome = .ok m) : MethodReads q m [] := by
  obtain ⟨ops, t, hops, hrole, hcode⟩ := method_code (fun ops t hops => by
    obtain ⟨rfl, -⟩ := Gen.pure_ok.mp hops
    exact written_asm _) h
  obtain ⟨rfl, -⟩ := Gen.pure_ok.mp hops
  refine ⟨hrole ▸ .constructor, ?_, fun hmain => by rw [hrole] at hmain; cases hmain⟩
  rw [hcode]
  exact ReadsOps.silent (by simp [superInit, Instr.silent, Primitive.silent])

lemma recordConstructor_reads {r : RecordTy} (h : (recordConstructor r).outcome = .ok m) :
    MethodReads q m [] := by
  obtain ⟨ops, t, hops, hrole, hcode⟩ := method_code (fun ops t hops => by
    simp only [Gen.bind_ok, Gen.pure_ok] at hops
    obtain ⟨code, u, -, rfl, -⟩ := hops
    exact written_asm _) h
  simp only [Gen.bind_ok, Gen.pure_ok] at hops
  obtain ⟨code, u, hfields, rfl, -⟩ := hops
  have hsilent := initFields_silent _ _ _ _ _ hfields
  refine ⟨hrole ▸ .constructor, ?_, fun hmain => by rw [hrole] at hmain; cases hmain⟩
  rw [hcode]
  exact ReadsOps.silent (by simp [hsilent, superInit, Instr.silent, Primitive.silent])

lemma routineMethod_reads {Γ : Variables} {r : Routine} (hr : r ∈ q.routines)
    (hbody : r.body.WellTyped Γ) (h : (routineMethod policy r).outcome = .ok m) :
    MethodReads q m r.body.targets := by
  rw [routineMethod, Traced.outcome_report_bind, Traced.outcome_reported] at h
  obtain ⟨ops, t, hops, hrole, hcode⟩ := method_code (fun ops t hops => by
    simp only [Gen.bind_ok, Gen.pure_ok] at hops
    obtain ⟨codeLocals, u, -, codeBody, v, hcodeBody, rfl, -⟩ := hops
    simp [(stmt_spans policy r.body _ _ _ hcodeBody).2.2]) h
  simp only [Gen.bind_ok, Gen.pure_ok] at hops
  obtain ⟨codeLocals, u, hlocals, codeBody, v, hcodeBody, rfl, -⟩ := hops
  have hstart : ReadsOps [] (asm codeLocals) := .silent (initLocals_silent _ _ _ _ hlocals)
  have hreads := stmt_reads hbody _ _ _ hcodeBody
  have hend : ReadsOps [] (asm (leave r.result)) := .silent (silent_leave r.result)
  refine ⟨hrole ▸ .routine hr, ?_, fun hmain => by rw [hrole] at hmain; cases hmain⟩
  rw [hcode]
  simpa [ReadsOps] using (hstart.append hreads).append hend

lemma mainMethod_reads {Γ : Variables} (hbody : q.body.WellTyped Γ)
    (h : (mainMethod policy q).outcome = .ok m) : MethodReads q m q.body.targets := by
  rw [mainMethod, Traced.outcome_reported] at h
  obtain ⟨ops, t, hops, hrole, hcode⟩ := method_code (fun ops t hops => by
    simp only [Gen.bind_ok, Gen.pure_ok] at hops
    obtain ⟨codeGlobals, u, -, codeBody, v, hcodeBody, rfl, -⟩ := hops
    simp [(stmt_spans policy q.body _ _ _ hcodeBody).2.2]) h
  simp only [Gen.bind_ok, Gen.pure_ok] at hops
  obtain ⟨codeGlobals, u, hglobals, codeBody, v, hcodeBody, rfl, -⟩ := hops
  have hopen : ReadsOps [] (asm [.invoke .openInput]) := .asm (.quiet (by simp [Instr.quiet]))
  have hstart : ReadsOps [] (asm codeGlobals) := .silent (initGlobals_silent _ _ _ _ hglobals)
  have hreads := stmt_reads hbody _ _ _ hcodeBody
  have hend : ReadsOps [] (asm [.ret none]) := .silent (by simp [Instr.silent])
  refine ⟨hrole ▸ .main, ?_, fun _ => by simp [hcode]⟩
  rw [hcode]
  simpa [ReadsOps] using ((hopen.append hstart).append hreads).append hend

theorem program_reads (hq : q.WellTyped) {classes : List ClassFile}
    (h : (Emit.program policy q).outcome = .ok classes) :
    ∀ c ∈ classes, ∀ m ∈ c.methods, ∃ targets, MethodReads q m targets := by
  simp only [Emit.program, programClass, Traced.bind_ok, Traced.outcome_mapM, Traced.outcome_pure,
    Except.ok.injEq] at h
  obtain ⟨own, ⟨constructor, hconstructor, routines, hroutines, main, hmain, rfl⟩, records,
    hrecords, rfl⟩ := h
  obtain ⟨Γ, -, -, hbody⟩ := hq.body
  refine List.forall_mem_cons.mpr ⟨fun m hm => ?_, fun c hc m hm => ?_⟩
  · simp only [List.cons_append, List.nil_append, List.mem_cons, List.mem_append, List.not_mem_nil,
      or_false] at hm
    rcases hm with rfl | hm | rfl
    · exact ⟨[], programConstructor_reads hconstructor⟩
    · obtain ⟨r, hr, hm⟩ := exists_left_of_forall₂ (forall₂_of_mapM_eq_ok hroutines) hm
      obtain ⟨Γ, -, -, hbody⟩ := (hq.routines r hr).body
      exact ⟨r.body.targets, routineMethod_reads hr hbody hm⟩
    · exact ⟨q.body.targets, mainMethod_reads hbody hmain⟩
  · obtain ⟨r, hr, hc⟩ := exists_left_of_forall₂ (forall₂_of_mapM_eq_ok hrecords) hc
    simp only [recordClass, Traced.bind_ok, Traced.outcome_pure, Except.ok.injEq] at hc
    obtain ⟨constructor, hconstructor, rfl⟩ := hc
    obtain rfl := List.mem_singleton.mp hm
    exact ⟨[], recordConstructor_reads hconstructor⟩

end Methods

end Emit
end PascalJvm
