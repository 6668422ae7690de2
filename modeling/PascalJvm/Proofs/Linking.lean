import Mathlib.Tactic
import PascalJvm.Proofs.Bodies
import PascalJvm.Proofs.Generation
import PascalJvm.Proofs.References

/-!
# Linking

The classes of a program refer to one another by name. Here it is shown that every reference
finds what it names: a field reference finds the field in the class that owns it, a record finds
its class, and a call finds one method, that of the routine which the called name means in the
blocks around the call.
-/
namespace PascalJvm

open Jvm Typed
open Source (Body Block Heading)

/-- The record that stands in the descriptor of a type, where one does. -/
def Ty.record? : Ty → Option String
  | .record name _ => some name
  | .array _ _ elem => elem.record?
  | _ => none

namespace Jvm

/-- The types in the descriptor of a method. -/
def MethodRef.types (m : MethodRef) : List Ty := m.params.map ParamDesc.ty ++ m.result.toList

/-- The types that are written out in an instruction. -/
def Instr.types : Instr → List Ty
  | .getStatic f | .putStatic f | .getField f | .putField f => [f.ty]
  | .newArray elem => [elem]
  | .invokeStatic m => m.types
  | _ => []

def MethodRole.routine? : MethodRole → Option MethodRef
  | .routine ref => some ref
  | _ => none

/-- The types in a method: in its own descriptor and in its code. -/
def Method.types (m : Method) : List Ty :=
  m.role.routine?.toList.flatMap MethodRef.types ++ m.code.instrs.flatMap Instr.types

/-- The types in a class: those of its fields and those in its methods. -/
def ClassFile.types (c : ClassFile) : List Ty :=
  c.fields.map FieldDecl.ty ++ c.methods.flatMap Method.types

/-- The methods of a class that come from routines. -/
def ClassFile.routineRefs (c : ClassFile) : List MethodRef :=
  c.methods.filterMap fun m => m.role.routine?

/-- The one class of this role. -/
def IsClassOf (classes : List ClassFile) (owner : Owner) (c : ClassFile) : Prop :=
  classes.filter (fun x => x.role = owner) = [c]

/-- What the instruction refers to is there: the field with its type in the class that owns it,
the class of the record, and one routine of this name, with the same descriptor. -/
def Instr.Linked (classes : List ClassFile) : Instr → Prop
  | .getStatic f | .putStatic f =>
      f.owner = .program ∧ ∃ c, IsClassOf classes .program c ∧ ⟨f.name, f.ty⟩ ∈ c.fields
  | .getField f | .putField f =>
      ∃ r, f.owner = .record r ∧ ∃ c, IsClassOf classes (.record r) c ∧ ⟨f.name, f.ty⟩ ∈ c.fields
  | .newRecord r => ∃ c, IsClassOf classes (.record r) c
  | .invokeStatic m =>
      ∃ c, IsClassOf classes .program c ∧ c.routineRefs.filter (fun x => x.name = m.name) = [m]
  | _ => True

/-- All that the class refers to is there, in its code and in the types of its descriptors. -/
def ClassFile.Linked (classes : List ClassFile) (c : ClassFile) : Prop :=
  (∀ m ∈ c.methods, ∀ ins ∈ m.code.instrs, ins.Linked classes) ∧
    ∀ t ∈ c.types, ∀ r ∈ t.record?, ∃ u, IsClassOf classes (.record r) u

def Instr.invoked? : Instr → Option MethodRef
  | .invokeStatic m => some m
  | _ => none

/-- The methods that are called in a method. -/
def Method.invoked (m : Method) : List MethodRef := m.code.instrs.filterMap Instr.invoked?

end Jvm

namespace Check

section Bodies

variable {env : Environment}

/-- A routine with this signature is called in the body, under the name that means it there. -/
def CalledIn (env : Environment) (b : Body) (sig : Signature) : Prop :=
  ∃ n ∈ b.stmt.called, ∃ path, b.resolve n = some path ∧ env.routines.lookup path = some sig

/-- The typed statement is that of the body: its calls are calls in the body. -/
def CallsIn (env : Environment) (b : Body) (c : Stmt) : Prop :=
  ∃ C : Signature → Prop, c.Calls C ∧ ∀ sig, C sig → CalledIn env b sig

/-- The routine has the signature of the path of the body, and its calls are calls in the body. -/
structure Checked (env : Environment) (b : Body) (r : Routine) : Prop where
  signature : env.routines.lookup b.path = some r.signature
  locals : ∀ v ∈ r.locals, ∃ ref, env.typeOf ref = .ok v.ty
  calls : CallsIn env b r.body

/-- The routines of a block hide those of the same names around it. -/
lemma lookup_visibleIn {outer : List (String × ScopePath)} {blocks : List (ScopePath × Block)}
    (h : ∀ n, outer.lookup n = Source.resolveIn blocks n) (path : ScopePath) (b : Block)
    (n : String) :
    (visibleIn path outer b.routines).lookup n = Source.resolveIn ((path, b) :: blocks) n := by
  rw [Source.resolveIn_cons, visibleIn, Block.routineNames]
  induction b.routines with
  | nil => simpa using h n
  | cons r rest ih =>
    by_cases hn : n = r.1.name
    · simp [hn]
    · have hne : (n == r.1.name) = false := by simpa using hn
      simpa only [List.map_cons, List.cons_append, List.lookup_cons, hne, List.mem_cons, hn,
        false_or] using ih

lemma signature_eq_ok {s : Scope} {n : String} {sig : Signature} :
    s.signature n = .ok sig ↔
      ∃ path, s.routines.lookup n = some path ∧ s.env.routines.lookup path = some sig := by
  unfold Scope.signature
  split
  next hn => simp [hn]
  next path hn =>
    split
    next hsig => simp [hn, hsig]
    next found hsig => simp [hn, hsig]

lemma callsIn_of_stmt {path : ScopePath} {locals : List (String × Symbol)}
    {visible : List (String × ScopePath)} {b : Body} {c : Stmt}
    (hvisible : ∀ n, visible.lookup n = b.resolve n)
    (h : (stmt ⟨env, path, locals, visible⟩ b.stmt).outcome = .ok c) : CallsIn env b c := by
  refine ⟨_, stmt_calls (N := (· ∈ b.stmt.called)) b.stmt (fun n hn => hn) h, ?_⟩
  rintro sig ⟨n, hn, hsig⟩
  obtain ⟨target, hlookup, hfound⟩ := signature_eq_ok.mp hsig
  exact ⟨n, hn, target, (hvisible n).symm.trans hlookup, hfound⟩

lemma declareLocals_types {routine : String} {f f' : Frame}
    {refs : List (String × Source.TypeRef)} {vs : List Local}
    (h : Frame.declareLocals env routine f refs = .ok (vs, f')) :
    ∀ v ∈ vs, ∃ ref, env.typeOf ref = .ok v.ty := by
  induction refs generalizing f vs with
  | nil =>
    cases h
    simp
  | cons ref rest ih =>
    simp only [Frame.declareLocals, Frame.declare, bind_eq_ok, pure_eq_ok, Prod.mk.injEq] at h
    obtain ⟨ty, hty, ⟨v, next⟩, ⟨-, -, rfl, rfl⟩, ⟨ws, last⟩, hlast, rfl, rfl⟩ := h
    exact List.forall_mem_cons.mpr ⟨⟨ref.2, hty⟩, ih hlast⟩

lemma routine_checked {visible : List (String × ScopePath)} {h : Heading}
    {vars : List (String × Source.TypeRef)} {b : Body} {r : Routine}
    (hvisible : ∀ n, visible.lookup n = b.resolve n)
    (hr : (routine env b.path visible h vars b.stmt).outcome = .ok r) : Checked env b r := by
  unfold routine at hr
  split at hr
  next => cases hr
  next sig hsig =>
    simp only [Traced.bind_ok, lift_outcome, Traced.outcome_pure, Except.ok.injEq] at hr
    obtain ⟨⟨params, f₁⟩, -, ⟨locals, f₂⟩, hlocals, ⟨result, f₃⟩, -, checked, hchecked, -, -, rfl⟩ := hr
    exact ⟨hsig, declareLocals_types hlocals, callsIn_of_stmt hvisible hchecked⟩

mutual

/-- The bodies of a routine are checked in their order. -/
theorem nested_checked (path : ScopePath) {outer : List (String × ScopePath)}
    {around : List (ScopePath × Block)} (houter : ∀ n, outer.lookup n = Source.resolveIn around n)
    (h : Heading) (b : Block) {rs : List Routine}
    (hr : (nested env path outer h b).outcome = .ok rs) :
    List.Forall₂ (Checked env) (b.bodies path around) rs := by
  match b with
  | ⟨consts, types, vars, inner, body⟩ =>
    have hvisible := lookup_visibleIn houter path ⟨consts, types, vars, inner, body⟩
    simp only [nested, Traced.bind_ok, Traced.outcome_pure, Except.ok.injEq] at hr
    obtain ⟨own, hown, rest, hrest, rfl⟩ := hr
    refine .cons (routine_checked hvisible hown) ?_
    exact routines_checked path hvisible inner hrest

theorem routines_checked (path : ScopePath) {visible : List (String × ScopePath)}
    {blocks : List (ScopePath × Block)}
    (hvisible : ∀ n, visible.lookup n = Source.resolveIn blocks n) (bs : List (Heading × Block))
    {rs : List Routine} (hr : (routines env path visible bs).outcome = .ok rs) :
    List.Forall₂ (Checked env) (Source.bodiesOf path blocks bs) rs := by
  match bs with
  | [] =>
    cases hr
    exact .nil
  | (h, b) :: rest =>
    simp only [routines, Traced.bind_ok, Traced.outcome_pure, Except.ok.injEq] at hr
    obtain ⟨own, hown, more, hmore, rfl⟩ := hr
    exact List.rel_append (nested_checked _ hvisible h b hown)
      (routines_checked path hvisible rest hmore)

end

/-- A checked program has one routine for each body, and the tables of its environment. -/
structure CheckedProgram (env : Environment) (p : Source.Program) (q : Program) : Prop where
  globals : q.globals = env.vars
  records : q.records = records env.types
  routines : List.Forall₂ (Checked env) p.routineBodies q.routines
  calls : CallsIn env p.mainBody q.body

theorem program_checked {p : Source.Program} {q : Program}
    (hq : (program env p).outcome = .ok q) : CheckedProgram env p q := by
  have hvisible : ∀ n, (visibleIn [] [] p.block.routines).lookup n = p.mainBody.resolve n :=
    lookup_visibleIn (fun n => rfl) [] p.block
  simp only [program, Traced.bind_ok, Traced.outcome_pure, Except.ok.injEq] at hq
  obtain ⟨rs, hrs, checked, hchecked, rfl⟩ := hq
  exact ⟨rfl, rfl, routines_checked [] hvisible p.block.routines hrs,
    callsIn_of_stmt (b := p.mainBody) hvisible hchecked⟩

end Bodies

end Check

section Referents

variable {ρ : Referents} {classes : List ClassFile} {own : ClassFile}

/-- All records in the types of the referents are referents. -/
structure Referents.Closed (ρ : Referents) : Prop where
  statics : ∀ v ∈ ρ.statics, v.2.Known ρ.records
  fields : ∀ r ∈ ρ.records, ∀ v ∈ r.fields, v.2.Known ρ.records
  callees : ∀ sig, ρ.Callee sig → ∀ t ∈ (MethodRef.ofSignature sig).types, t.Known ρ.records

/-- The classes have all referents; `own` is the class of the program. -/
structure Referents.Provided (ρ : Referents) (classes : List ClassFile) (own : ClassFile) :
    Prop where
  program : IsClassOf classes .program own
  statics : own.fields = Emit.fieldDecls ρ.statics
  records : ∀ r ∈ ρ.records, ∃ c, IsClassOf classes (.record r.name) c ∧
    c.fields = Emit.fieldDecls r.fields
  callees : ∀ sig, ρ.Callee sig →
    own.routineRefs.filter (fun x => x.name = sig.method) = [.ofSignature sig]

lemma mem_fieldDecls {fields : List (String × Ty)} {v : String × Ty} (hv : v ∈ fields) :
    ⟨v.1, v.2⟩ ∈ Emit.fieldDecls fields :=
  List.mem_map_of_mem hv

lemma Jvm.Instr.Refers.linked {ins : Instr} (h : ins.Refers ρ) (hρ : ρ.Provided classes own) :
    ins.Linked classes := by
  cases ins with
  | getStatic f | putStatic f =>
    obtain ⟨v, hv, rfl⟩ := h
    exact ⟨rfl, own, hρ.program, hρ.statics ▸ mem_fieldDecls hv⟩
  | getField f | putField f =>
    obtain ⟨r, hr, v, hv, rfl⟩ := h
    obtain ⟨c, hc, hfields⟩ := hρ.records r hr
    exact ⟨r.name, rfl, c, hc, hfields ▸ mem_fieldDecls hv⟩
  | newRecord name =>
    obtain ⟨r, hr, rfl⟩ := h
    obtain ⟨c, hc, -⟩ := hρ.records r hr
    exact ⟨c, hc⟩
  | invokeStatic m =>
    obtain ⟨sig, hsig, rfl⟩ := h
    exact ⟨own, hρ.program, hρ.callees sig hsig⟩
  | _ => trivial

lemma Jvm.Instr.Refers.known {ins : Instr} (h : ins.Refers ρ) (hρ : ρ.Closed) :
    ∀ t ∈ ins.types, t.Known ρ.records := by
  cases ins with
  | getStatic f | putStatic f =>
    obtain ⟨v, hv, rfl⟩ := h
    exact List.forall_mem_singleton.mpr (hρ.statics v hv)
  | getField f | putField f =>
    obtain ⟨r, hr, v, hv, rfl⟩ := h
    exact List.forall_mem_singleton.mpr (hρ.fields r hr v hv)
  | newArray elem => exact List.forall_mem_singleton.mpr h
  | invokeStatic m =>
    obtain ⟨sig, hsig, rfl⟩ := h
    exact hρ.callees sig hsig
  | _ => exact List.forall_mem_nil _

lemma Ty.Known.record {records : List RecordTy} {t : Ty} (h : t.Known records) {name : String}
    (hname : name ∈ t.record?) : ∃ r ∈ records, r.name = name := by
  induction t using Ty.record?.induct with
  | case1 name' fields =>
    cases hname
    exact ⟨_, h.1, rfl⟩
  | case2 low len elem ih => exact ih h hname
  | case3 t hrecord harray =>
    rw [Ty.record?] at hname
    · cases hname
    · exact hrecord
    · exact harray

/-- Fewer calls may be named by more. -/
lemma Referents.Bounds.callees {code : List Instr} (h : ρ.Bounds code) {C : Signature → Prop}
    (hC : ∀ sig, ρ.Callee sig → C sig) : Referents.Bounds ⟨ρ.statics, ρ.records, C⟩ code := by
  intro ins hins
  have hrefers := h ins hins
  cases ins with
  | invokeStatic m =>
    obtain ⟨sig, hsig, rfl⟩ := hrefers
    exact ⟨sig, hC sig hsig, rfl⟩
  | _ => exact hrefers

end Referents

/-- What the classes of a program with this environment may refer to. -/
abbrev Environment.referents (env : Environment) (C : Signature → Prop) : Referents :=
  ⟨env.vars, Check.records env.types, C⟩

namespace Environment

variable {env : Environment} (henv : env.Coherent)

include henv

lemma Coherent.known {t : Ty} (ht : t.EachRecord (DeclaredIn env.types)) :
    t.Known (Check.records env.types) :=
  ht.mono fun _ _ h => Check.mem_records henv h

lemma Coherent.signature {path : ScopePath} {sig : Signature}
    (hsig : env.routines.lookup path = some sig) :
    sig.method = path.method ∧
      ∀ t ∈ (MethodRef.ofSignature sig).types, t.Known (Check.records env.types) := by
  obtain ⟨before, after, hsplit, -⟩ := List.lookup_eq_some_iff.mp hsig
  have hmem : (path, sig) ∈ env.routines := by simp [hsplit]
  refine ⟨henv.method_eq _ hmem, List.forall_mem_append.mpr ⟨?_, ?_⟩⟩
  · intro t ht
    obtain ⟨d, hd, rfl⟩ := List.mem_map.mp ht
    obtain ⟨passing, hpassing, rfl⟩ := List.mem_map.mp hd
    rw [ParamDesc.ty_ofPassing]
    exact henv.known (henv.params _ hmem passing hpassing)
  · intro t ht
    exact henv.known (henv.results _ hmem t (Option.mem_toList.mp ht))

lemma Coherent.closed {C : Signature → Prop}
    (hC : ∀ sig, C sig → ∃ path, env.routines.lookup path = some sig) :
    (env.referents C).Closed where
  statics v hv := henv.known (henv.vars v hv)
  fields r hr := Ty.eachFieldRecord_iff.mp (Check.records_each henv hr).2
  callees sig hsig := by
    obtain ⟨path, hpath⟩ := hC sig hsig
    exact (henv.signature hpath).2

/-- The variables of a routine have types whose records are known. -/
lemma Coherent.covers {C : Signature → Prop} {b : Body} {r : Routine} (hr : Check.Checked env b r)
    (hresult : r.result.map Local.ty = r.signature.result) {Γ : Variables}
    (hstatics : Γ.statics = env.vars) (hslots : Γ.slots = r.layout) :
    (env.referents C).Covers Γ ∧
      ∀ v ∈ r.locals ++ r.result.toList, v.ty.Known (Check.records env.types) := by
  obtain ⟨-, hknown⟩ := henv.signature hr.signature
  obtain ⟨hparams, hres⟩ := List.forall_mem_append.mp hknown
  have hvars : ∀ v ∈ r.locals ++ r.result.toList, v.ty.Known (Check.records env.types) := by
    refine List.forall_mem_append.mpr ⟨fun v hv => ?_, fun v hv => ?_⟩
    · obtain ⟨ref, href⟩ := hr.locals v hv
      exact henv.known (henv.typeOf href)
    · refine hres v.ty ?_
      show v.ty ∈ r.signature.result.toList
      rw [← hresult]
      simpa using ⟨v, by simpa using hv, rfl⟩
  refine ⟨⟨hstatics, fun v hv => henv.known (henv.vars v (hstatics ▸ hv)), ?_⟩, hvars⟩
  rw [hslots]
  refine List.forall_mem_append.mpr ⟨fun d hd => hparams d.ty (List.mem_map_of_mem hd), fun d hd => ?_⟩
  obtain ⟨v, hv, rfl⟩ := List.mem_map.mp hd
  exact hvars v hv

end Environment

namespace Emit

section Methods

variable {ρ : Referents} {policy : CasePolicy} {m : Method}

/-- The code of a method is what its body emits. -/
lemma method_bounds {role : MethodRole} {n : Nat} {body : Gen (List Op)}
    (hbody : Gives (fun ops => Written ops ∧ BoundsOps ρ ops) body)
    (h : (method role n body).outcome = .ok m) : m.role = role ∧ ρ.Bounds m.code.instrs := by
  unfold method at h
  split at h
  next => cases h
  next ops supply hops =>
    obtain ⟨hwritten, hbounds⟩ := hbody _ _ _ hops
    dsimp only at h
    split at h
    next => cases h
    next code hcode =>
      cases h
      have hinstrs := (Assembler.sound_of_assemble (builds_labelled hwritten) hcode).1
      rw [emitted_labelled] at hinstrs
      exact ⟨rfl, hinstrs ▸ hbounds⟩

lemma stmt_gives_written {Γ : Variables} (hρ : ρ.Covers Γ) {c : Stmt} (h : c.WellTyped Γ)
    (hc : c.Calls ρ.Callee) :
    Gives (fun ops => Written ops ∧ BoundsOps ρ ops) (stmt policy c) :=
  fun s ops t hops => ⟨(stmt_spans policy c s ops t hops).2.2, stmt_gives hρ h hc s ops t hops⟩

lemma programConstructor_bounds (h : programConstructor.outcome = .ok m) :
    m.role = .constructor ∧ ρ.Bounds m.code.instrs :=
  method_bounds (.pure (by simp [superInit, Instr.Refers])) h

lemma recordConstructor_bounds {r : RecordTy} (hr : r ∈ ρ.records) (hρ : ρ.Closed)
    (h : (recordConstructor r).outcome = .ok m) : m.role = .constructor ∧ ρ.Bounds m.code.instrs := by
  refine method_bounds (.bind (initFields_gives hr fun f hf => ⟨hf, hρ.fields r hr f hf⟩) ?_) h
  intro code hcode
  exact .pure (by simp [hcode, superInit, Instr.Refers])

/-- The method is that of the body: it has the descriptor of the routine at the path of the body,
and it calls what is called in the body. -/
structure Generated (env : Environment) (b : Source.Body) (m : Method) : Prop where
  role : ∃ sig, env.routines.lookup b.path = some sig ∧ m.role = .routine (.ofSignature sig)
  bounds : (env.referents (Check.CalledIn env b)).Bounds m.code.instrs

variable {env : Environment} (henv : env.Coherent)

include henv

lemma routineMethod_generated {b : Source.Body} {r : Routine} (hr : Check.Checked env b r)
    (hwt : r.WellTyped env.vars) (h : (routineMethod policy r).outcome = .ok m) :
    Generated env b m := by
  obtain ⟨Γ, hstatics, hslots, hbody⟩ := hwt.body
  obtain ⟨C, hcalls, hC⟩ := hr.calls
  obtain ⟨hcovers, hvars⟩ := henv.covers (C := C) hr hwt.result hstatics hslots
  rw [routineMethod, Traced.outcome_report_bind, Traced.outcome_reported] at h
  have hlocals : Gives (env.referents C).Bounds (initLocals (r.locals ++ r.result.toList)) :=
    initLocals_gives hvars
  obtain ⟨hrole, hbounds⟩ := method_bounds (.bind hlocals fun _ hcode =>
    .bind (stmt_gives_written hcovers hbody hcalls) fun _ hops =>
      .pure (P := fun ops => Written ops ∧ BoundsOps (env.referents C) ops)
        (by simp [hcode, hops, bounds_leave])) h
  exact ⟨⟨_, hr.signature, hrole⟩, hbounds.callees hC⟩

lemma routines_generated {bodies : List Source.Body} {rs : List Routine} {ms : List Method}
    (hrs : List.Forall₂ (Check.Checked env) bodies rs) (hwt : ∀ r ∈ rs, r.WellTyped env.vars)
    (hms : List.Forall₂ (fun r m => (routineMethod policy r).outcome = .ok m) rs ms) :
    List.Forall₂ (Generated env) bodies ms := by
  induction hrs generalizing ms with
  | nil =>
    cases hms
    exact .nil
  | cons hr _ ih =>
    obtain ⟨hwtr, hwts⟩ := List.forall_mem_cons.mp hwt
    cases hms with
    | cons hm hms => exact .cons (routineMethod_generated henv hr hwtr hm) (ih hwts hms)

lemma mainMethod_bounds {p : Source.Program} {q : Program} (hq : Check.CheckedProgram env p q)
    (hwt : q.WellTyped) (h : (mainMethod policy q).outcome = .ok m) :
    m.role = .main ∧ (env.referents (Check.CalledIn env p.mainBody)).Bounds m.code.instrs := by
  obtain ⟨Γ, hstatics, hslots, hbody⟩ := hwt.body
  obtain ⟨C, hcalls, hC⟩ := hq.calls
  rw [hq.globals] at hstatics
  have hvars : ∀ v ∈ env.vars, v.2.Known (Check.records env.types) :=
    fun v hv => henv.known (henv.vars v hv)
  have hcovers : (env.referents C).Covers Γ :=
    ⟨hstatics, hstatics ▸ hvars, hslots ▸ List.forall_mem_nil _⟩
  rw [mainMethod, Traced.outcome_reported, hq.globals] at h
  have hglobals : Gives (env.referents C).Bounds (initGlobals env.vars) :=
    initGlobals_gives fun v hv => ⟨hv, hvars v hv⟩
  obtain ⟨hrole, hbounds⟩ := method_bounds (.bind hglobals fun _ hcode =>
    .bind (stmt_gives_written hcovers hbody hcalls) fun _ hops =>
      .pure (P := fun ops => Written ops ∧ BoundsOps (env.referents C) ops)
        (by simp [hcode, hops, Instr.Refers])) h
  exact ⟨hrole, hbounds.callees hC⟩

end Methods

section Classes

variable {env : Environment} {p : Source.Program} {classes : List ClassFile}
  {constructor main : Method} {routines : List Method} {records : List ClassFile}

/-- The class of a program. -/
def ownClass (env : Environment) (constructor main : Method) (routines : List Method) : ClassFile :=
  ⟨.program, fieldDecls env.vars, constructor :: (routines ++ [main])⟩

/-- The method is a constructor, and calls no routine. -/
structure Initial (env : Environment) (m : Method) : Prop where
  role : m.role = .constructor
  bounds : (env.referents fun _ => False).Bounds m.code.instrs

/-- The class is that of the record. -/
structure OfRecord (env : Environment) (r : RecordTy) (c : ClassFile) : Prop where
  role : c.role = .record r.name
  fields : c.fields = fieldDecls r.fields
  methods : ∀ m ∈ c.methods, Initial env m

/-- What the classes of a program are made of. -/
structure Parts (env : Environment) (p : Source.Program) (constructor main : Method)
    (routines : List Method) (records : List ClassFile) : Prop where
  constructor : Initial env constructor
  main_role : main.role = .main
  main : (env.referents (Check.CalledIn env p.mainBody)).Bounds main.code.instrs
  routines : List.Forall₂ (Generated env) p.routineBodies routines
  records : List.Forall₂ (OfRecord env) (Check.records env.types) records

lemma recordClass_ofRecord (henv : env.Coherent) {r : RecordTy} (hr : r ∈ Check.records env.types)
    {c : ClassFile} (h : (recordClass r).outcome = .ok c) : OfRecord env r c := by
  simp only [recordClass, Traced.bind_ok, Traced.outcome_pure, Except.ok.injEq] at h
  obtain ⟨m, hm, rfl⟩ := h
  have hclosed : (env.referents fun _ => False).Closed := henv.closed fun _ => False.elim
  obtain ⟨hrole, hbounds⟩ := recordConstructor_bounds hr hclosed hm
  exact ⟨rfl, rfl, List.forall_mem_singleton.mpr ⟨hrole, hbounds⟩⟩

theorem program_parts (henv : env.Coherent) {q : Program} (hq : Check.CheckedProgram env p q)
    (hwt : q.WellTyped) {policy : CasePolicy}
    (h : (Emit.program policy q).outcome = .ok classes) :
    ∃ constructor main routines records,
      classes = ownClass env constructor main routines :: records ∧
        Parts env p constructor main routines records := by
  simp only [Emit.program, programClass, Traced.bind_ok, Traced.outcome_mapM, Traced.outcome_pure,
    Except.ok.injEq] at h
  obtain ⟨own, ⟨constructor, hconstructor, routines, hroutines, main, hmain, rfl⟩, records,
    hrecords, rfl⟩ := h
  obtain ⟨hrole, hbounds⟩ := mainMethod_bounds henv hq hwt hmain
  have hwts : ∀ r ∈ q.routines, r.WellTyped env.vars := hq.globals ▸ hwt.routines
  rw [hq.records] at hrecords
  refine ⟨constructor, main, routines, records, ?_, ?_⟩
  · rw [hq.globals]
    rfl
  · refine ⟨?_, hrole, hbounds, ?_, ?_⟩
    · obtain ⟨hinit, hcode⟩ := programConstructor_bounds hconstructor
      exact ⟨hinit, hcode⟩
    · exact routines_generated henv hq.routines hwts (forall₂_of_mapM_eq_ok hroutines)
    · have hall := (List.forall₂_and_left _ _).mpr
        ⟨fun r (hr : r ∈ Check.records env.types) => hr, forall₂_of_mapM_eq_ok hrecords⟩
      exact hall.imp fun r c hc => recordClass_ofRecord henv hc.1 hc.2

lemma filter_eq_singleton {α β : Type} [DecidableEq β] {f : α → β} {xs : List α}
    (hxs : (xs.map f).Nodup) {x : α} (hx : x ∈ xs) : xs.filter (fun y => f y = f x) = [x] := by
  induction xs with
  | nil => cases hx
  | cons y ys ih =>
    rw [List.map_cons, List.nodup_cons] at hxs
    rcases List.mem_cons.mp hx with rfl | hx
    · have hrest : ys.filter (fun y => f y = f x) = [] := by
        refine List.filter_eq_nil_iff.mpr fun y hy hxy => hxs.1 ?_
        exact List.mem_map.mpr ⟨y, hy, by simpa using hxy⟩
      simp [hrest]
    · have hne : f y ≠ f x := fun hxy => hxs.1 (hxy ▸ List.mem_map_of_mem hx)
      simpa [hne] using ih hxs.2 hx

lemma exists_mem_zip {α β : Type} {R : α → β → Prop} {xs : List α} {ys : List β}
    (h : List.Forall₂ R xs ys) {x : α} (hx : x ∈ xs) : ∃ y, (x, y) ∈ xs.zip ys ∧ R x y := by
  induction h with
  | nil => cases hx
  | cons hxy _ ih =>
    rcases List.mem_cons.mp hx with rfl | hx
    · exact ⟨_, List.mem_cons_self, hxy⟩
    · obtain ⟨y, hy, hr⟩ := ih hx
      exact ⟨y, List.mem_cons_of_mem _ hy, hr⟩

/-- The methods of routines are named for their paths. -/
lemma names_of_generated (henv : env.Coherent) {bodies : List Source.Body}
    (h : List.Forall₂ (Generated env) bodies routines) :
    (routines.filterMap fun m => m.role.routine?).map MethodRef.name =
      bodies.map fun b => b.path.method := by
  induction h with
  | nil => rfl
  | cons hm _ ih =>
    obtain ⟨sig, hsig, hrole⟩ := hm.role
    have href : MethodRole.routine? _ = some (.ofSignature sig) := congrArg MethodRole.routine? hrole
    have hname : (MethodRef.ofSignature sig).name = _ := (henv.signature hsig).1
    simp only [List.filterMap_cons, href, List.map_cons, hname, ih]

lemma roles_of_records {rs : List RecordTy} (h : List.Forall₂ (OfRecord env) rs records) :
    records.map ClassFile.role = (rs.map RecordTy.name).map Owner.record := by
  induction h with
  | nil => rfl
  | cons hc _ ih => simp only [List.map_cons, hc.role, ih]

lemma fst_mem_of_mem_bodies {b : Source.Body} {m : Method}
    (h : (b, m) ∈ (p.mainBody, main) :: p.routineBodies.zip routines) :
    b ∈ p.mainBody :: p.routineBodies := by
  rcases List.mem_cons.mp h with heq | hmem
  · cases heq
    exact List.mem_cons_self
  · exact List.mem_cons_of_mem _ (List.of_mem_zip hmem).1

/-- The signature is called somewhere in the program. -/
def Callee (env : Environment) (p : Source.Program) (sig : Signature) : Prop :=
  ∃ b ∈ p.mainBody :: p.routineBodies, Check.CalledIn env b sig

lemma Callee.lookup {sig : Signature} (h : Callee env p sig) :
    ∃ path, env.routines.lookup path = some sig := by
  obtain ⟨b, -, n, -, path, -, hsig⟩ := h
  exact ⟨path, hsig⟩

namespace Parts

variable (h : Parts env p constructor main routines records)

include h

lemma roles_nodup (henv : env.Coherent) :
    ((ownClass env constructor main routines :: records).map ClassFile.role).Nodup := by
  rw [List.map_cons, roles_of_records h.records, List.nodup_cons]
  refine ⟨by simp [ownClass], (Check.nodup_records henv).map fun a b hab => ?_⟩
  exact Owner.record.inj hab

lemma isClassOf (henv : env.Coherent) {c : ClassFile}
    (hc : c ∈ ownClass env constructor main routines :: records) :
    IsClassOf (ownClass env constructor main routines :: records) c.role c :=
  filter_eq_singleton (h.roles_nodup henv) hc

lemma routineRefs_eq : (ownClass env constructor main routines).routineRefs =
    routines.filterMap fun m => m.role.routine? := by
  simp [ClassFile.routineRefs, ownClass, List.filterMap_append, h.constructor.role, h.main_role,
    MethodRole.routine?]

/-- A call finds the method of the routine that the name means where it is called. -/
lemma callee {b : Source.Body} (hb : b ∈ p.mainBody :: p.routineBodies) {n : String}
    {path : ScopePath} (hpath : b.resolve n = some path) {sig : Signature}
    (hsig : env.routines.lookup path = some sig) :
    ∃ t ∈ p.routineBodies.zip routines, t.1.path = path ∧ t.2.role = .routine (.ofSignature sig) := by
  obtain ⟨t, ht, rfl⟩ := Source.Program.resolve_mem hb hpath
  obtain ⟨m, hm, hgenerated⟩ := exists_mem_zip h.routines ht
  obtain ⟨sig', hsig', hrole⟩ := hgenerated.role
  obtain rfl : sig = sig' := Option.some.inj (hsig.symm.trans hsig')
  exact ⟨(t, m), hm, rfl, hrole⟩

/-- Every method is a constructor, which calls nothing, or it is the method of a body and calls
what is called there. -/
lemma method {c : ClassFile} (hc : c ∈ ownClass env constructor main routines :: records)
    {m : Method} (hm : m ∈ c.methods) :
    (∀ ref ∈ m.role.routine?, ∃ path sig, env.routines.lookup path = some sig ∧
      ref = .ofSignature sig) ∧
    ∃ C : Signature → Prop, (env.referents C).Bounds m.code.instrs ∧ ∀ sig, C sig →
      ∃ b, (b, m) ∈ (p.mainBody, main) :: p.routineBodies.zip routines ∧
        Check.CalledIn env b sig := by
  have hinitial {m : Method} (hm : Initial env m) :
      m.role.routine? = none ∧ (env.referents fun _ => False).Bounds m.code.instrs :=
    ⟨congrArg MethodRole.routine? hm.role, hm.bounds⟩
  have hnone {role : MethodRole} (hrole : role.routine? = none) :
      ∀ ref ∈ role.routine?, ∃ path sig, env.routines.lookup path = some sig ∧
        ref = .ofSignature sig := by
    simp [hrole]
  rcases List.mem_cons.mp hc with rfl | hc
  · rcases List.mem_cons.mp hm with rfl | hm
    · obtain ⟨hrole, hbounds⟩ := hinitial h.constructor
      exact ⟨hnone hrole, _, hbounds, fun _ => False.elim⟩
    rcases List.mem_append.mp hm with hm | hm
    · obtain ⟨b, hb, hgenerated⟩ := exists_mem_zip h.routines.flip hm
      have hmem : (b, m) ∈ p.routineBodies.zip routines := by
        rw [← List.zip_swap]
        exact List.mem_map_of_mem hb
      obtain ⟨sig, hsig, hrole⟩ := hgenerated.role
      refine ⟨?_, _, hgenerated.bounds, fun sig hsig => ⟨b, List.mem_cons_of_mem _ hmem, hsig⟩⟩
      intro ref href
      rw [hrole] at href
      cases href
      exact ⟨b.path, sig, hsig, rfl⟩
    · obtain rfl := List.mem_singleton.mp hm
      refine ⟨hnone (congrArg MethodRole.routine? h.main_role), _, h.main, fun sig hsig => ?_⟩
      exact ⟨p.mainBody, List.mem_cons_self, hsig⟩
  · obtain ⟨r, -, hrecord⟩ := exists_mem_zip h.records.flip hc
    obtain ⟨hrole, hbounds⟩ := hinitial (hrecord.methods m hm)
    exact ⟨hnone hrole, _, hbounds, fun _ => False.elim⟩

lemma bounds {c : ClassFile} (hc : c ∈ ownClass env constructor main routines :: records)
    {m : Method} (hm : m ∈ c.methods) : (env.referents (Callee env p)).Bounds m.code.instrs := by
  obtain ⟨-, C, hbounds, hcalled⟩ := h.method hc hm
  refine hbounds.callees fun sig hsig => ?_
  obtain ⟨b, hb, hcalled⟩ := hcalled sig hsig
  exact ⟨b, fst_mem_of_mem_bodies hb, hcalled⟩

variable (henv : env.Coherent) (hnames : (p.routineBodies.map fun b => b.path.method).Nodup)

include henv

lemma types_known {c : ClassFile} (hc : c ∈ ownClass env constructor main routines :: records) :
    ∀ t ∈ c.types, t.Known (Check.records env.types) := by
  have hclosed : (env.referents (Callee env p)).Closed := henv.closed fun _ => Callee.lookup
  refine List.forall_mem_append.mpr ⟨?_, ?_⟩
  · intro t ht
    obtain ⟨d, hd, rfl⟩ := List.mem_map.mp ht
    rcases List.mem_cons.mp hc with rfl | hc
    · obtain ⟨v, hv, rfl⟩ := List.mem_map.mp hd
      exact hclosed.statics v hv
    · obtain ⟨r, hr, hrecord⟩ := exists_mem_zip h.records.flip hc
      rw [hrecord.fields] at hd
      obtain ⟨v, hv, rfl⟩ := List.mem_map.mp hd
      exact hclosed.fields r (List.of_mem_zip hr).2 v hv
  · intro t ht
    obtain ⟨m, hm, ht⟩ := List.mem_flatMap.mp ht
    rcases List.mem_append.mp ht with ht | ht
    · obtain ⟨ref, href, ht⟩ := List.mem_flatMap.mp ht
      obtain ⟨path, sig, hsig, rfl⟩ := (h.method hc hm).1 ref (Option.mem_toList.mp href)
      exact (henv.signature hsig).2 t ht
    · obtain ⟨ins, hins, ht⟩ := List.mem_flatMap.mp ht
      exact (h.bounds hc hm ins hins).known hclosed t ht

include hnames

lemma provided : (env.referents (Callee env p)).Provided
    (ownClass env constructor main routines :: records)
    (ownClass env constructor main routines) where
  program := h.isClassOf henv List.mem_cons_self
  statics := rfl
  records r hr := by
    obtain ⟨c, hc, hrecord⟩ := exists_mem_zip h.records hr
    have hmem : c ∈ records := (List.of_mem_zip hc).2
    exact ⟨c, hrecord.role ▸ h.isClassOf henv (List.mem_cons_of_mem _ hmem), hrecord.fields⟩
  callees sig hsig := by
    obtain ⟨b, hb, n, -, path, hpath, hsig⟩ := hsig
    obtain ⟨t, ht, -, hrole⟩ := h.callee hb hpath hsig
    have hmem : MethodRef.ofSignature sig ∈
        (ownClass env constructor main routines).routineRefs := by
      rw [h.routineRefs_eq]
      exact List.mem_filterMap.mpr ⟨t.2, (List.of_mem_zip ht).2, congrArg MethodRole.routine? hrole⟩
    refine filter_eq_singleton (f := MethodRef.name) ?_ hmem
    rw [h.routineRefs_eq, names_of_generated henv h.routines]
    exact hnames

theorem linked : ∀ c ∈ ownClass env constructor main routines :: records,
    c.Linked (ownClass env constructor main routines :: records) := by
  intro c hc
  have hprovided := h.provided henv hnames
  refine ⟨fun m hm ins hins => (h.bounds hc hm ins hins).linked hprovided, fun t ht name hname => ?_⟩
  obtain ⟨r, hr, rfl⟩ := (h.types_known henv hc t ht).record hname
  obtain ⟨u, hu, -⟩ := hprovided.records r hr
  exact ⟨u, hu⟩

end Parts

end Classes

end Emit

/-- The methods of the class of a program. Between the constructor and the main method there is
one for each routine, in the order of their bodies and named for their paths. -/
structure MethodsOf (p : Source.Program) (own : ClassFile) (main : Method)
    (routines : List Method) : Prop where
  methods_eq : ∃ constructor, own.methods = constructor :: (routines ++ [main])
  main_role : main.role = .main
  named : List.Forall₂ (fun b m => ∃ ref, m.role = .routine ref ∧ ref.name = b.path.method)
    p.routineBodies routines

lemma Emit.Parts.methodsOf {env : Environment} {p : Source.Program} {constructor main : Method}
    {routines : List Method} {records : List ClassFile}
    (h : Parts env p constructor main routines records) (henv : env.Coherent) :
    MethodsOf p (ownClass env constructor main routines) main routines := by
  refine ⟨⟨constructor, rfl⟩, h.main_role, h.routines.imp fun b m hm => ?_⟩
  obtain ⟨sig, hsig, hrole⟩ := hm.role
  exact ⟨_, hrole, (henv.signature hsig).1⟩

lemma Referents.Bounds.invoked {ρ : Referents} {m : Method} (h : ρ.Bounds m.code.instrs)
    {ref : MethodRef} (href : ref ∈ m.invoked) : ∃ sig, ρ.Callee sig ∧ ref = .ofSignature sig := by
  obtain ⟨ins, hins, hcall⟩ := List.mem_filterMap.mp href
  have hrefers := h ins hins
  cases ins with
  | invokeStatic m =>
    cases hcall
    exact hrefers
  | _ => cases hcall

/-- The classes that are generated from a checked program have no dangling reference. Every field
reference finds its field, with the same type, in the one class that owns it. Every record that is
made, or that stands in a descriptor, has one class. Every call finds one routine of its name in
the class of the program, with the same descriptor, and it is the method of the routine that the
called name means in the innermost block around the call. -/
theorem generated_references_linked {source : List Char} {p : Source.Program} {env : Environment}
    {q : Program} (hparse : Source.Program.parse source = .ok p)
    (henv : Environment.ofProgram p = .ok env) (hcheck : (Check.program env p).outcome = .ok q)
    {policy : Emit.CasePolicy} {classes : List ClassFile}
    (hclasses : (Emit.program policy q).outcome = .ok classes) :
    (∀ c ∈ classes, c.Linked classes) ∧
      ∃ own main routines, IsClassOf classes .program own ∧ MethodsOf p own main routines ∧
        ∀ c ∈ classes, ∀ m ∈ c.methods, ∀ ref ∈ m.invoked,
          ∃ b, (b, m) ∈ (p.mainBody, main) :: p.routineBodies.zip routines ∧
            ∃ n ∈ b.stmt.called, ∃ t ∈ p.routineBodies.zip routines,
              b.resolve n = some t.1.path ∧ t.2.role = .routine ref := by
  have hcoherent := Environment.coherent_of_ofProgram henv
  obtain ⟨constructor, main, routines, records, rfl, hparts⟩ :=
    Emit.program_parts hcoherent (Check.program_checked hcheck)
      (wellTyped_of_checked hparse henv hcheck) hclasses
  refine ⟨hparts.linked hcoherent (Source.nodup_methods hparse henv), _, main, routines,
    hparts.isClassOf hcoherent List.mem_cons_self, hparts.methodsOf hcoherent, ?_⟩
  intro c hc m hm ref href
  obtain ⟨-, C, hbounds, hcalled⟩ := hparts.method hc hm
  obtain ⟨sig, hsig, rfl⟩ := hbounds.invoked href
  obtain ⟨b, hb, n, hn, path, hpath, hfound⟩ := hcalled sig hsig
  obtain ⟨t, ht, rfl, hrole⟩ := hparts.callee (Emit.fst_mem_of_mem_bodies hb) hpath hfound
  exact ⟨b, hb, n, hn, t, ht, hpath, hrole⟩

/-- Two routines are named `step`. The one inside `outer` hides the other one there. -/
def hidingSource : List Char :=
  ("program demo; type pair = record a: integer; b: real end; row = array[1..3] of pair; " ++
    "var xs: row; n: integer; procedure step(var k: integer); begin k := k + 1 end; " ++
    "procedure outer(var r: row); procedure step(var x: real); begin x := x + 1 end; " ++
    "begin step(r[2].b) end; begin step(n); outer(xs) end.").toList

/-- The names of the methods that are called in each method of each class. -/
def invokedNames (classes : List ClassFile) : List (List (List String)) :=
  classes.map fun c => c.methods.map fun m => m.invoked.map MethodRef.name

theorem hidingSource_references_linked : ∃ p env q classes,
    Source.Program.parse hidingSource = .ok p ∧ Environment.ofProgram p = .ok env ∧
    (Check.program env p).outcome = .ok q ∧ (Emit.program .reject q).outcome = .ok classes ∧
    invokedNames classes = [[[], [], ["outer$step"], [], ["step", "outer"]], [[]]] ∧
    (∀ c ∈ classes, c.Linked classes) ∧
      ∃ own main routines, IsClassOf classes .program own ∧ MethodsOf p own main routines ∧
        ∀ c ∈ classes, ∀ m ∈ c.methods, ∀ ref ∈ m.invoked,
          ∃ b, (b, m) ∈ (p.mainBody, main) :: p.routineBodies.zip routines ∧
            ∃ n ∈ b.stmt.called, ∃ t ∈ p.routineBodies.zip routines,
              b.resolve n = some t.1.path ∧ t.2.role = .routine ref := by
  have hnames : ((Compile.checked hidingSource).outcome.toOption.bind fun q =>
      (Emit.program .reject q).outcome.toOption.map invokedNames) =
      some [[[], [], ["outer$step"], [], ["step", "outer"]], [[]]] := by decide +kernel
  obtain ⟨q, hq, hnames⟩ := Option.bind_eq_some_iff.mp hnames
  obtain ⟨classes, hclasses, hnames⟩ := Option.map_eq_some_iff.mp hnames
  rw [toOption_eq_some] at hq hclasses
  obtain ⟨p, env, hparse, henv, hcheck⟩ := Compile.checked_ok.mp hq
  exact ⟨p, env, q, classes, hparse, henv, hcheck, hclasses, hnames,
    generated_references_linked hparse henv hcheck hclasses⟩

end PascalJvm
