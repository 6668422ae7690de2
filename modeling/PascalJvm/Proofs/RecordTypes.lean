import Mathlib.Tactic
import PascalJvm.Check.Program
import PascalJvm.Proofs.DeclarationSteps

/-!
# Record types

A record type carries its fields wherever it occurs: in a variable, in an array, under another
name. As every type name is declared once, all occurrences of a record in the tables of an
environment are copies of one declaration (`Environment.Coherent`). So the records that are
collected from the declared types are all there are, each with its own fields.
-/
namespace PascalJvm

open Typed (RecordTy)

namespace Ty

mutual

/-- Every record that occurs in the type satisfies `R`. -/
def EachRecord (R : String → List (String × Ty) → Prop) : Ty → Prop
  | .record name fields => R name fields ∧ EachFieldRecord R fields
  | .array _ _ elem => elem.EachRecord R
  | _ => True

def EachFieldRecord (R : String → List (String × Ty) → Prop) : List (String × Ty) → Prop
  | [] => True
  | (_, t) :: rest => t.EachRecord R ∧ EachFieldRecord R rest

end

/-- The records that occur in the type are among `records`. -/
abbrev Known (records : List RecordTy) : Ty → Prop :=
  EachRecord fun name fields => ⟨name, fields⟩ ∈ records

variable {R R' : String → List (String × Ty) → Prop}

mutual

theorem EachRecord.mono (hR : ∀ name fields, R name fields → R' name fields) {t : Ty}
    (h : t.EachRecord R) : t.EachRecord R' := by
  match t with
  | .record name fields => exact ⟨hR name fields h.1, EachFieldRecord.mono hR h.2⟩
  | .array _ _ elem => exact EachRecord.mono (t := elem) hR h
  | .basic _ | .enum _ => trivial

theorem EachFieldRecord.mono (hR : ∀ name fields, R name fields → R' name fields)
    {fields : List (String × Ty)} (h : EachFieldRecord R fields) : EachFieldRecord R' fields := by
  match fields with
  | [] => trivial
  | (_, t) :: rest => exact ⟨EachRecord.mono hR h.1, EachFieldRecord.mono hR h.2⟩

end

lemma eachFieldRecord_iff {fields : List (String × Ty)} :
    EachFieldRecord R fields ↔ ∀ f ∈ fields, f.2.EachRecord R := by
  induction fields with
  | nil => simp [EachFieldRecord]
  | cons field rest ih => simp [EachFieldRecord, ih]

lemma eachRecord_of_scalar {t : Ty} (h : t.isAggregate = false) : t.EachRecord R := by
  cases t with
  | basic b => trivial
  | enum n => trivial
  | record n fields => cases h
  | array low len elem => cases h

lemma eachRecord_arrayOf {dims : List (Int32 × Nat)} {elem : Ty} (h : elem.EachRecord R) :
    (Environment.arrayOf dims elem).EachRecord R := by
  induction dims with
  | nil => exact h
  | cons d dims ih => exact ih

end Ty

namespace Environment

open Ty
open Source (TypeRef TypeSpec)

/-- The record is declared under its own name. -/
def DeclaredIn (types : List (String × Ty)) (name : String) (fields : List (String × Ty)) : Prop :=
  types.lookup name = some (.record name fields)

/-- Every record in the tables is a copy of the one that is declared under its name, and every
signature has the method of its path. -/
structure Coherent (env : Environment) : Prop where
  types : ∀ t ∈ env.types, t.2.EachRecord (DeclaredIn env.types)
  vars : ∀ v ∈ env.vars, v.2.EachRecord (DeclaredIn env.types)
  params : ∀ r ∈ env.routines, ∀ p ∈ r.2.params, p.ty.EachRecord (DeclaredIn env.types)
  results : ∀ r ∈ env.routines, ∀ t ∈ r.2.result, t.EachRecord (DeclaredIn env.types)
  method_eq : ∀ r ∈ env.routines, r.2.method = r.1.method

variable {path : ScopePath} {env env' : Environment}

lemma Coherent.empty : Environment.empty.Coherent := by
  constructor <;> simp [Environment.empty]

lemma Coherent.typeOf (h : env.Coherent) {ref : TypeRef} {t : Ty} (ht : env.typeOf ref = .ok t) :
    t.EachRecord (DeclaredIn env.types) := by
  cases ref with
  | basic b =>
    cases ht
    trivial
  | named n =>
    simp only [Environment.typeOf, Constant.orError_eq_ok, List.lookup_eq_some_iff] at ht
    obtain ⟨before, after, hsplit, -⟩ := ht
    exact h.types (n, t) (by simp [hsplit])

/-- Declaring a type under a new name leaves the other types where they are. -/
lemma DeclaredIn.append {types more : List (String × Ty)} {name : String}
    {fields : List (String × Ty)} (h : DeclaredIn types name fields) :
    DeclaredIn (types ++ more) name fields :=
  lookup_append_of_some h

lemma fieldsOf_eachRecord (henv : env.Coherent) {done fields : List (String × Ty)}
    {refs : List (String × TypeRef)} (hdone : EachFieldRecord (DeclaredIn env.types) done)
    (h : fieldsOf path env done refs = .ok fields) :
    EachFieldRecord (DeclaredIn env.types) fields := by
  induction refs generalizing done with
  | nil =>
    cases h
    exact hdone
  | cons ref rest ih =>
    obtain ⟨name, ref⟩ := ref
    simp only [fieldsOf, bind_eq_ok] at h
    obtain ⟨t, ht, h⟩ := h
    obtain ⟨-, h⟩ := ok_of_guard h
    refine ih (eachFieldRecord_iff.mpr ?_) h
    intro f hf
    rcases List.mem_append.mp hf with hf | hf
    · exact eachFieldRecord_iff.mp hdone f hf
    · rw [List.mem_singleton.mp hf]
      exact henv.typeOf ht

/-- The declared type may be a new record; all records inside it are declared already. -/
lemma specify_eachRecord (henv : env.Coherent) {name : String} {spec : TypeSpec} {ty : Ty}
    (hfresh : name ∉ env.types.map Prod.fst)
    (h : specify path env name spec = .ok (env', ty)) :
    ty.EachRecord (DeclaredIn (env.types ++ [(name, ty)])) := by
  match spec with
  | .basic b =>
    cases h
    trivial
  | .enum values =>
    simp only [specify, bind_eq_ok, pure_eq_ok, Prod.mk.injEq] at h
    obtain ⟨-, -, -, rfl⟩ := h
    trivial
  | .record fields =>
    simp only [specify, bind_eq_ok, pure_eq_ok, Prod.mk.injEq] at h
    obtain ⟨fs, hfs, -, rfl⟩ := h
    have hfields := fieldsOf_eachRecord henv (by trivial) hfs
    refine ⟨?_, hfields.mono fun _ _ hr => hr.append⟩
    rw [DeclaredIn, lookup_append_of_notMem hfresh, List.lookup_cons_self]
  | .array ranges elem =>
    simp only [specify, bind_eq_ok, pure_eq_ok, Prod.mk.injEq] at h
    obtain ⟨dims, -, t, ht, -, rfl⟩ := h
    exact eachRecord_arrayOf ((henv.typeOf ht).mono fun _ _ hr => hr.append)
  | .alias n =>
    simp only [specify, bind_eq_ok, pure_eq_ok, Prod.mk.injEq] at h
    obtain ⟨t, ht, -, rfl⟩ := h
    exact (henv.typeOf ht).mono fun _ _ hr => hr.append

/-- A declaration of a type brings only constants of its own. -/
lemma specify_keeps {name : String} {spec : TypeSpec} {ty : Ty}
    (h : specify path env name spec = .ok (env', ty)) :
    ∃ consts, env' = { env with consts := consts } := by
  cases spec with
  | enum values =>
    simp only [specify, bind_eq_ok, pure_eq_ok, Prod.mk.injEq, declareValues_eq_ok] at h
    obtain ⟨_, ⟨-, -, rfl⟩, rfl, -⟩ := h
    exact ⟨_, rfl⟩
  | _ =>
    simp only [specify, bind_eq_ok, pure_eq_ok, Prod.mk.injEq, Except.ok.injEq] at h
    obtain rfl : env = env' := by tauto
    exact ⟨_, rfl⟩

lemma passing_eachRecord (henv : env.Coherent) {routine : String} {p : Source.Param} {q : Passing}
    (h : passing env routine p = .ok q) : q.ty.EachRecord (DeclaredIn env.types) := by
  simp only [passing, bind_eq_ok] at h
  obtain ⟨t, ht, h⟩ := h
  obtain ⟨-, h⟩ := ok_of_guard h
  rw [← pure_eq_ok.mp h]
  exact henv.typeOf ht

lemma resultOf_eachRecord (henv : env.Coherent) {heading : Source.Heading} {r : Option Ty}
    (h : resultOf env heading = .ok r) : ∀ t ∈ r, t.EachRecord (DeclaredIn env.types) := by
  unfold resultOf at h
  split at h
  next =>
    cases h
    simp
  next ref _ =>
    simp only [bind_eq_ok] at h
    obtain ⟨t, ht, h⟩ := h
    obtain ⟨-, h⟩ := ok_of_guard h
    rw [← pure_eq_ok.mp h]
    simpa using henv.typeOf ht

/-- What holds of the old entries of a table and of the new one holds of all. -/
lemma forall_mem_concat {α : Type} {P : α → Prop} {xs : List α} {x : α} (hxs : ∀ y ∈ xs, P y)
    (hx : P x) : ∀ y ∈ xs ++ [x], P y := by
  intro y hy
  rcases List.mem_append.mp hy with hy | hy
  · exact hxs y hy
  · rw [List.mem_singleton.mp hy]
    exact hx

lemma Step.coherent {s : Step} (henv : env.Coherent) (h : s.run env = .ok env') :
    env'.Coherent := by
  match s with
  | .declare path (.const n e) =>
    obtain ⟨-, c, -, rfl⟩ := declareConst_ok h
    exact ⟨henv.types, henv.vars, henv.params, henv.results, henv.method_eq⟩
  | .declare path (.type n spec) =>
    obtain ⟨hfresh, mid, ty, hspec, rfl⟩ := declareType_ok h
    have hty := specify_eachRecord henv hfresh hspec
    obtain ⟨consts, rfl⟩ := specify_keeps hspec
    have hmono : ∀ {t : Ty}, t.EachRecord (DeclaredIn env.types) →
        t.EachRecord (DeclaredIn (env.types ++ [(n, ty)])) :=
      fun ht => ht.mono fun _ _ hr => hr.append
    exact ⟨forall_mem_concat (fun t ht => hmono (henv.types t ht)) hty,
      fun v hv => hmono (henv.vars v hv), fun r hr p hp => hmono (henv.params r hr p hp),
      fun r hr t ht => hmono (henv.results r hr t ht), henv.method_eq⟩
  | .var path n ref =>
    obtain ⟨-, h⟩ := ok_of_guard h
    simp only [bind_eq_ok, pure_eq_ok] at h
    obtain ⟨t, ht, rfl⟩ := h
    exact ⟨henv.types, forall_mem_concat henv.vars (henv.typeOf ht), henv.params, henv.results,
      henv.method_eq⟩
  | .heading path seen (first, b) =>
    obtain ⟨-, h⟩ := ok_of_guard h
    simp only [bind_eq_ok] at h
    obtain ⟨params, hparams, result, hresult, h⟩ := h
    cases h
    exact ⟨henv.types, henv.vars,
      forall_mem_concat henv.params
        (forall_of_mapM_eq_ok (fun _ _ hp => passing_eachRecord henv hp) hparams),
      forall_mem_concat henv.results (resultOf_eachRecord henv hresult),
      forall_mem_concat henv.method_eq rfl⟩

/-- What each of the steps keeps, they keep together. -/
lemma of_steps {P : Environment → Prop} {steps : List Step}
    (hstep : ∀ s ∈ steps, ∀ env env' : Environment, P env → s.run env = .ok env' → P env')
    (henv : P env) (h : steps.foldlM Step.run env = .ok env') : P env' := by
  induction steps generalizing env with
  | nil =>
    simp only [List.foldlM_nil, pure_eq_ok] at h
    exact h ▸ henv
  | cons s rest ih =>
    obtain ⟨hs, hrest⟩ := List.forall_mem_cons.mp hstep
    simp only [List.foldlM_cons, bind_eq_ok] at h
    obtain ⟨next, hnext, h⟩ := h
    exact ih hrest (hs env next henv hnext) h

/-- What holds of the empty environment and is kept by every step holds of the environment of a
program. -/
theorem of_ofProgram {P : Environment → Prop} (hempty : P .empty)
    (hstep : ∀ (s : Step) (env env' : Environment), P env → s.run env = .ok env' → P env')
    {p : Source.Program} (h : ofProgram p = .ok env) : P env := by
  rw [ofProgram, declareBlock_eq_steps] at h
  exact of_steps (fun s _ => hstep s) hempty h

theorem coherent_of_ofProgram {p : Source.Program} (h : ofProgram p = .ok env) : env.Coherent :=
  of_ofProgram .empty (fun _ _ _ henv hrun => Step.coherent henv hrun) h

end Environment

namespace Check

open Environment (DeclaredIn)

lemma insertRecord_perm (r : RecordTy) (known : List RecordTy) :
    (insertRecord r known).Perm (r :: known) := by
  induction known with
  | nil => exact .refl _
  | cons x rest ih =>
    rw [insertRecord]
    split_ifs
    · exact .refl _
    · exact (ih.cons x).trans (.swap r x rest)

variable {R : String → List (String × Ty) → Prop}

/-- The records that are known so far: distinct names, and each one satisfies `R`. -/
structure Collected (R : String → List (String × Ty) → Prop) (known : List RecordTy) : Prop where
  nodup : (known.map RecordTy.name).Nodup
  each : ∀ r ∈ known, R r.name r.fields

lemma Collected.nil : Collected R [] := ⟨List.nodup_nil, by simp⟩

lemma Collected.insert {known : List RecordTy} (h : Collected R known) {r : RecordTy}
    (hr : R r.name r.fields) (hnew : (known.any fun x => x.name = r.name) = false) :
    Collected R (insertRecord r known) := by
  have hperm := insertRecord_perm r known
  refine ⟨(hperm.map _).nodup_iff.mpr (List.nodup_cons.mpr ⟨?_, h.nodup⟩), ?_⟩
  · intro hmem
    obtain ⟨x, hx, hname⟩ := List.mem_map.mp hmem
    exact List.any_eq_false.mp hnew x hx (decide_eq_true hname)
  · intro x hx
    rcases List.mem_cons.mp (hperm.mem_iff.mp hx) with rfl | hx
    · exact hr
    · exact h.each x hx

mutual

/-- What is known stays known, and what is added occurs in the type. -/
theorem addRecords_spec (known : List RecordTy) (t : Ty) (h : Collected R known)
    (ht : t.EachRecord R) :
    Collected R (addRecords known t) ∧ ∀ r ∈ known, r ∈ addRecords known t := by
  match t with
  | .record name fields =>
    rw [addRecords]
    split_ifs with hknown
    · exact ⟨h, fun r hr => hr⟩
    · have hperm := insertRecord_perm ⟨name, fields⟩ known
      obtain ⟨hcollected, hkept⟩ := addFieldRecords_spec (insertRecord ⟨name, fields⟩ known) fields
        (h.insert ht.1 (by simpa using hknown)) ht.2
      exact ⟨hcollected, fun r hr =>
        hkept r (hperm.mem_iff.mpr (List.mem_cons_of_mem _ hr))⟩
  | .array _ _ elem => exact addRecords_spec known elem h ht
  | .basic _ | .enum _ => exact ⟨h, fun r hr => hr⟩

theorem addFieldRecords_spec (known : List RecordTy) (fields : List (String × Ty))
    (h : Collected R known) (ht : Ty.EachFieldRecord R fields) :
    Collected R (addFieldRecords known fields) ∧ ∀ r ∈ known, r ∈ addFieldRecords known fields := by
  match fields with
  | [] => exact ⟨h, fun r hr => hr⟩
  | (_, t) :: rest =>
    obtain ⟨hnext, hkept⟩ := addRecords_spec known t h ht.1
    obtain ⟨hlast, hkept'⟩ := addFieldRecords_spec (addRecords known t) rest hnext ht.2
    exact ⟨hlast, fun r hr => hkept' r (hkept r hr)⟩

end

/-- A record type has its name among those that are known after it. -/
lemma name_mem_addRecords {known : List RecordTy} {name : String} {fields : List (String × Ty)}
    (h : Collected R known) (ht : (Ty.record name fields).EachRecord R) :
    ∃ r ∈ addRecords known (.record name fields), r.name = name := by
  rw [addRecords]
  split_ifs with hknown
  · simpa using hknown
  · obtain ⟨-, hkept⟩ := addFieldRecords_spec (insertRecord ⟨name, fields⟩ known) fields
      (h.insert ht.1 (by simpa using hknown)) ht.2
    exact ⟨⟨name, fields⟩, hkept _ ((insertRecord_perm _ _).mem_iff.mpr List.mem_cons_self), rfl⟩

lemma collect_spec {types : List (String × Ty)} (htypes : ∀ t ∈ types, t.2.EachRecord R)
    {known : List RecordTy} (h : Collected R known) :
    Collected R (types.foldl (fun known t => addRecords known t.2) known) ∧
      (∀ r ∈ known, r ∈ types.foldl (fun known t => addRecords known t.2) known) ∧
      ∀ n name fields, (n, .record name fields) ∈ types →
        ∃ r ∈ types.foldl (fun known t => addRecords known t.2) known, r.name = name := by
  induction types generalizing known with
  | nil => exact ⟨h, fun r hr => hr, by simp⟩
  | cons t rest ih =>
    obtain ⟨ht, hrest⟩ := List.forall_mem_cons.mp htypes
    obtain ⟨hnext, hkept⟩ := addRecords_spec known t.2 h ht
    obtain ⟨hlast, hkept', hnamed⟩ := ih hrest hnext
    refine ⟨hlast, fun r hr => hkept' r (hkept r hr), fun n name fields hmem => ?_⟩
    rcases List.mem_cons.mp hmem with rfl | hmem
    · obtain ⟨r, hr, hname⟩ := name_mem_addRecords h ht
      exact ⟨r, hkept' r hr, hname⟩
    · exact hnamed n name fields hmem

/-- The records of a program have distinct names. -/
lemma nodup_records {env : Environment} (henv : env.Coherent) :
    ((records env.types).map RecordTy.name).Nodup :=
  (collect_spec henv.types .nil).1.nodup

/-- Every record that is declared is among the records of the program. -/
lemma mem_records {env : Environment} (henv : env.Coherent) {name : String}
    {fields : List (String × Ty)} (h : DeclaredIn env.types name fields) :
    ⟨name, fields⟩ ∈ records env.types := by
  obtain ⟨hcollected, -, hnamed⟩ := collect_spec henv.types .nil
  obtain ⟨before, after, hsplit, -⟩ := List.lookup_eq_some_iff.mp h
  obtain ⟨r, hr, rfl⟩ := hnamed name name fields (by simp [hsplit])
  -- the record that goes by this name is declared under it, so it has the same fields
  have hsame := (hcollected.each r hr).symm.trans h
  simp only [Option.some.injEq, Ty.record.injEq, true_and] at hsame
  rw [← hsame]
  exact hr

/-- The fields of a record of the program are types of the tables. -/
lemma records_each {env : Environment} (henv : env.Coherent) {r : RecordTy}
    (hr : r ∈ records env.types) : (Ty.record r.name r.fields).Known (records env.types) := by
  have hdeclared := (collect_spec henv.types .nil).1.each r hr
  obtain ⟨before, after, hsplit, -⟩ := List.lookup_eq_some_iff.mp hdeclared
  have hmem : (r.name, Ty.record r.name r.fields) ∈ env.types := by simp [hsplit]
  exact (henv.types _ hmem).mono fun _ _ h => mem_records henv h

end Check
end PascalJvm
