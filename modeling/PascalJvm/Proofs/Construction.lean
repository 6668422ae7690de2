import Mathlib.Data.Set.Finite.Basic
import Mathlib.Logic.Relation
import Mathlib.Tactic
import PascalJvm.Proofs.Members
import PascalJvm.Proofs.MethodFlow
import PascalJvm.Proofs.NestedCalls

/-!
# A machine with constructors

The machine makes records: a new record starts with blank fields, its constructor runs on it while
the method that makes it waits, and goes on when the constructor returns. The constructors are those
of the classes that are generated, one for each record type of a program. Each of them calls the
constructor of its superclass, makes the objects of the fields, and returns (`Constructs`).
-/
namespace PascalJvm

open Jvm Typed

/-- The constructor of a class. -/
def Jvm.ClassFile.constructor? (c : ClassFile) : Option Method :=
  c.methods.find? fun m => m.role matches .constructor

namespace Run

/-- The address that no object has. -/
def null : Nat := 0

/-- What a field or an array element of a kind holds before anything is stored there. -/
def Value.blank : Kind → Value
  | .int | .bool | .char => .int 0
  | .float => .real .zero
  | .ref => .ref null

/-- There is room for more objects: finitely many are there, and none at `null`. -/
structure Roomy (heap : Heap) : Prop where
  finite : {a | heap a ≠ none}.Finite
  null : heap null = none

/-- While there is room, a new object has an address of its own. New fields and elements are
blank. -/
structure World.Allocates (w : World) : Prop where
  room {heap : Heap} (h : Roomy heap) : ∃ a, w.room heap = .ok a ∧ heap a = none ∧ a ≠ Run.null
  blank (t : Ty) : w.blank t = .blank (.ofTy t)

lemma Roomy.ne_null {heap : Heap} (h : Roomy heap) {a : Nat} {o : Object} (ha : heap a = some o) :
    a ≠ Run.null := by
  rintro rfl
  rw [h.null] at ha
  cases ha

lemma Roomy.put {σ : Store} (h : Roomy σ.heap) {a : Nat} (ha : a ≠ Run.null) (o : Object) :
    Roomy (σ.put a o).heap where
  finite := by
    refine (h.finite.insert a).subset fun b hb => ?_
    by_cases hba : b = a
    · exact .inl hba
    · rw [Set.mem_ofPred_eq, σ.heap_put_of_ne o hba] at hb
      exact .inr hb
  null := by rw [σ.heap_put_of_ne o ha.symm, h.null]

/-- The fields of a new record. -/
def blankFields (w : World) (c : ClassFile) (name : String) : Option Value :=
  (c.fields.find? fun f => f.name = name).map fun f => w.blank f.ty

/-- A method that waits for a constructor. -/
structure Caller where
  code : List Instr
  pc : Nat
  stack : List Value
  slots : Nat → Option Value

/-- The method that runs, and the methods that wait for it, the last one first. -/
structure Thread where
  code : List Instr
  config : Config
  callers : List Caller

namespace Thread

/-- One step. A constructor finds the new record in slot 0. -/
def step (w : World) (classes : List ClassFile) : Thread → Eval Thread
  | ⟨code, ⟨pc, st, σ⟩, callers⟩ =>
      match code[pc]? with
      | some (.newRecord name) => do
          let c ← Store.orStuck (classes.find? fun c => c.role = .record name)
          let m ← Store.orStuck c.constructor?
          let a ← w.room σ.heap
          let slots := fun n => if n = 0 then some (.ref a) else none
          let entry := { σ.put a (.record (blankFields w c)) with slots }
          return ⟨m.code.instrs, ⟨0, [], entry⟩, ⟨code, pc + 1, .ref a :: st, σ.slots⟩ :: callers⟩
      | some (.invoke .objectInit) =>
          match st with
          | .ref _ :: st => .ok ⟨code, ⟨pc + 1, st, σ⟩, callers⟩
          | _ => .error .stuck
      | some (.ret none) =>
          match callers with
          | [] => .error .stuck
          | ⟨code, pc, st, slots⟩ :: callers => .ok ⟨code, ⟨pc, st, { σ with slots }⟩, callers⟩
      | _ => do return ⟨code, ← w.step code ⟨pc, st, σ⟩, callers⟩

def Reaches (w : World) (classes : List ClassFile) : Thread → Thread → Prop :=
  Relation.ReflTransGen fun t u => t.step w classes = .ok u

variable {w : World} {classes : List ClassFile} {code : List Instr} {callers : List Caller}
  {p : Nat} {st : List Value} {σ : Store}

/-- Where the machine without constructors goes on, this one does the same. -/
lemma step_eq {c d : Config} (h : w.step code c = .ok d) :
    step w classes ⟨code, c, callers⟩ = .ok ⟨code, d, callers⟩ := by
  obtain ⟨pc, st, σ⟩ := c
  have hother : (do return ⟨code, ← w.step code ⟨pc, st, σ⟩, callers⟩ : Eval Thread) =
      .ok ⟨code, d, callers⟩ := by
    rw [h]
    rfl
  unfold step
  dsimp only
  split
  next name hins =>
    simp only [World.step, hins] at h
    cases h
  next hins =>
    simp only [World.step, hins] at h
    cases h
  next hins =>
    simp only [World.step, hins] at h
    cases h
  next => exact hother

lemma reaches_of_run {c d : Config} (h : Run.Reaches w.toHost code c d) :
    Reaches w classes ⟨code, c, callers⟩ ⟨code, d, callers⟩ := by
  refine Relation.ReflTransGen.lift (fun c => Thread.mk code c callers) (fun c d hcd => ?_) c d h
  exact step_eq (by rw [w.step_eq (by rw [hcd]; simp), hcd])

lemma reaches_workAll {block : List Instr} {s s' : State} (hs : Straight block)
    (hcode : CodeAt code p block) (h : workAll w.toHost block s = .ok s') :
    Reaches w classes ⟨code, ⟨p, s⟩, callers⟩ ⟨code, ⟨p + block.length, s'⟩, callers⟩ :=
  reaches_of_run ((follows_workAll hs hcode s).reaches h)

lemma reaches_load {k : Kind} {n : Nat} {v : Value} (h : code[p]? = some (.load k n))
    (hv : σ.slots n = some v) :
    Reaches w classes ⟨code, ⟨p, st, σ⟩, callers⟩ ⟨code, ⟨p + 1, v :: st, σ⟩, callers⟩ := by
  refine reaches_workAll (by simp [Straight, Instr.straight]) (codeAt_singleton.mpr h) ?_
  rw [workAll_singleton, World.work_load hv]

variable (callers st) in
/-- A new array is blank. -/
lemma reaches_newArray (hw : w.Allocates) {t : Ty} {n : Nat} (hn : n < 2 ^ 31)
    (h : CodeAt code p [.pushInt (Int32.ofNat n), .newArray t]) (hσ : Roomy σ.heap) :
    ∃ a, σ.heap a = none ∧ a ≠ Run.null ∧ Reaches w classes ⟨code, ⟨p, st, σ⟩, callers⟩
      ⟨code, ⟨p + 2, .ref a :: st,
        σ.put a (.array (List.replicate n (.blank (.ofTy t))))⟩, callers⟩ := by
  rw [codeAt_cons, codeAt_singleton] at h
  obtain ⟨a, ha, hnew, hnull⟩ := hw.room hσ
  have hint : (Int32.ofNat n).toInt = n := Int32.toInt_ofNat_of_lt hn
  have hpos : (0 : Int32) ≤ Int32.ofNat n := by
    rw [Int32.le_iff_toInt_le, hint, Int32.toInt_zero]
    omega
  have hpush : Run.step w.toHost code ⟨p, st, σ⟩ = .ok ⟨p + 1, .int (Int32.ofNat n) :: st, σ⟩ :=
    step_of_act h.1 rfl rfl
  have hmake : w.step code ⟨p + 1, .int (Int32.ofNat n) :: st, σ⟩ =
      .ok ⟨p + 2, .ref a :: st, σ.put a (.array (List.replicate n (.blank (.ofTy t))))⟩ := by
    simp only [World.step, h.2, Store.orStuck]
    change (w.act (.newArray t) ⟨.int (Int32.ofNat n) :: st, σ⟩ >>= _) = _
    rw [World.act, if_pos hpos, ha, hint, hw.blank]
    rfl
  exact ⟨a, hnew, hnull, (reaches_of_run (.single hpush)).tail (step_eq hmake)⟩

variable (callers st) in
/-- The constructor of a new record starts with the record in slot 0. -/
lemma reaches_newRecord (hw : w.Allocates) {name : String} {c : ClassFile} {m : Method}
    (h : code[p]? = some (.newRecord name))
    (hc : classes.find? (fun c => c.role = .record name) = some c) (hm : c.constructor? = some m)
    (hσ : Roomy σ.heap) :
    ∃ a, σ.heap a = none ∧ a ≠ Run.null ∧ Reaches w classes ⟨code, ⟨p, st, σ⟩, callers⟩
      ⟨m.code.instrs, ⟨0, [], { σ.put a (.record (blankFields w c)) with
        slots := fun n => if n = 0 then some (.ref a) else none }⟩,
        ⟨code, p + 1, .ref a :: st, σ.slots⟩ :: callers⟩ := by
  obtain ⟨a, ha, hnew, hnull⟩ := hw.room hσ
  refine ⟨a, hnew, hnull, .single ?_⟩
  simp only [step, h, hc]
  change (Store.orStuck c.constructor? >>= fun m => w.room σ.heap >>= _) = _
  rw [hm, ha]
  rfl

lemma reaches_objectInit {a : Nat} (h : code[p]? = some (.invoke .objectInit)) :
    Reaches w classes ⟨code, ⟨p, .ref a :: st, σ⟩, callers⟩ ⟨code, ⟨p + 1, st, σ⟩, callers⟩ := by
  refine .single ?_
  simp only [step, h]

/-- After the return the method that waited has its own slots again. -/
lemma reaches_ret {caller : Caller} (h : code[p]? = some (.ret none)) :
    Reaches w classes ⟨code, ⟨p, st, σ⟩, caller :: callers⟩
      ⟨caller.code, ⟨caller.pc, caller.stack, { σ with slots := caller.slots }⟩, callers⟩ := by
  refine .single ?_
  simp only [step, h]

end Thread

end Run

namespace Emit

/-- The class that goes by the name of the record has its fields, and a constructor that makes
them. -/
structure Constructs (classes : List ClassFile) (name : String) (fields : List (String × Ty)) :
    Prop where
  nodup : (fields.map Prod.fst).Nodup
  generated : ∃ c m code u, classes.find? (fun c => c.role = .record name) = some c ∧
    c.fields = fieldDecls fields ∧ c.constructor? = some m ∧
    initFields name fields (.startingAt 1) = .ok (code, u) ∧
    m.code.instrs = superInit ++ code ++ [.ret none]

/-- The code of a method is what its body emits. -/
lemma method_code {role : MethodRole} {n : Nat} {body : Gen (List Op)} {m : Method}
    (hbody : ∀ ops t, body (.startingAt n) = .ok (ops, t) → Written ops)
    (h : (method role n body).outcome = .ok m) :
    ∃ ops t, body (.startingAt n) = .ok (ops, t) ∧ m.role = role ∧ m.code.instrs = emitted ops := by
  unfold method at h
  split at h
  next => cases h
  next ops supply hops =>
    dsimp only at h
    split at h
    next => cases h
    next code hcode =>
      cases h
      have hinstrs := (Assembler.sound_of_assemble (builds_labelled (hbody _ _ hops)) hcode).1
      rw [emitted_labelled] at hinstrs
      exact ⟨ops, supply, hops, rfl, hinstrs⟩

lemma recordClass_code {r : RecordTy} {c : ClassFile} (h : (recordClass r).outcome = .ok c) :
    c.role = .record r.name ∧ c.fields = fieldDecls r.fields ∧ ∃ m code u,
      c.constructor? = some m ∧ initFields r.name r.fields (.startingAt 1) = .ok (code, u) ∧
      m.code.instrs = superInit ++ code ++ [.ret none] := by
  simp only [recordClass, Traced.bind_ok, Traced.outcome_pure, Except.ok.injEq] at h
  obtain ⟨m, hm, rfl⟩ := h
  obtain ⟨ops, t, hops, hrole, hcode⟩ := method_code (fun ops t hops => by
    simp only [Gen.bind_ok, Gen.pure_ok] at hops
    obtain ⟨code, u, -, rfl, rfl⟩ := hops
    exact written_asm _) hm
  simp only [Gen.bind_ok, Gen.pure_ok] at hops
  obtain ⟨code, u, hfields, rfl, rfl⟩ := hops
  refine ⟨rfl, rfl, m, code, u, ?_, hfields, by rw [hcode, emitted_asm]⟩
  simp [ClassFile.constructor?, hrole]

/-- A record of the list is found under its name. -/
lemma find_class {records : List RecordTy} {classes : List ClassFile}
    {P : RecordTy → ClassFile → Prop}
    (h : List.Forall₂ (fun r c => c.role = .record r.name ∧ P r c) records classes)
    (hnames : (records.map RecordTy.name).Nodup) {r : RecordTy} (hr : r ∈ records) :
    ∃ c, classes.find? (fun c => c.role = .record r.name) = some c ∧ P r c := by
  induction h with
  | nil => cases hr
  | @cons x c records classes hx hrest ih =>
    rw [List.map_cons, List.nodup_cons] at hnames
    rw [List.find?_cons]
    rcases List.mem_cons.mp hr with rfl | hr
    · exact ⟨c, by simp [hx.1], hx.2⟩
    · have hne : x.name ≠ r.name := fun heq => hnames.1 (heq ▸ List.mem_map_of_mem hr)
      simpa [hx.1, hne] using ih hnames.2 hr

/-- The classes of the records of a program can be generated, and make every record in the
tables. -/
lemma exists_classes {p : Source.Program} {env : Environment}
    (h : Environment.ofProgram p = .ok env) :
    ∃ classes, ((Check.records env.types).mapM recordClass).outcome = .ok classes ∧
      ∀ r ∈ Check.records env.types, Constructs classes r.name r.fields := by
  have henv := Environment.coherent_of_ofProgram h
  have hends : ∀ r ∈ Check.records env.types,
      Ends (ClassVerified p.name) (fun _ => False) (recordClass r) := fun r _ => recordClass_ends r
  rcases Ends.mapM hends with ⟨classes, hclasses, -⟩ | ⟨e, -, hbad⟩
  · refine ⟨classes, hclasses, fun r hr => ?_⟩
    rw [Traced.outcome_mapM] at hclasses
    have hall := (forall₂_of_mapM_eq_ok hclasses).imp fun _ _ hc => recordClass_code hc
    obtain ⟨c, hfind, hfields, m, code, u, hm, hcode, hinstrs⟩ :=
      find_class hall (Check.nodup_records henv) hr
    exact ⟨(Environment.distinctNames_of_ofProgram h).record henv hr,
      c, m, code, u, hfind, hfields, hm, hcode, hinstrs⟩
  · exact hbad.elim

end Emit

end PascalJvm
