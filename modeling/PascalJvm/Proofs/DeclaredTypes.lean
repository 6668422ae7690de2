import Mathlib.Tactic
import PascalJvm.Proofs.Members

/-!
# The types of an environment

A type comes into the tables of an environment in one of few ways: it is a basic type, an
enumeration, a record of types that are there, an array of them with the dimensions that its
ranges have, or one that is there already. So a property that passes from the parts of a
declaration to the declared type holds of every type in the tables
(`Environment.Inherited.forall_mem_tys`).
-/
namespace PascalJvm

/-- The first type occurs in the second one, at any depth. -/
inductive Ty.Occurs (t : Ty) : Ty → Prop
  | refl : Occurs t t
  | field {name field : String} {fields : List (String × Ty)} {u : Ty} (hu : (field, u) ∈ fields)
      (h : Occurs t u) : Occurs t (.record name fields)
  | element {low : Int32} {len : Nat} {elem : Ty} (h : Occurs t elem) :
      Occurs t (.array low len elem)

namespace Environment

open Source (TypeRef TypeSpec)

/-- The types in the tables: those that are declared, and those of program variables,
parameters and results. -/
def tys (env : Environment) : List Ty :=
  env.types.map Prod.snd ++ env.vars.map Prod.snd ++
    env.routines.flatMap fun r => r.2.params.map Passing.ty ++ r.2.result.toList

/-- The property passes from the parts of a declaration to the declared type. -/
structure Inherited (P : Ty → Prop) : Prop where
  basic (b : Basic) : P (.basic b)
  enum (name : String) : P (.enum name)
  record {name : String} {fields : List (String × Ty)} (hnames : (fields.map Prod.fst).Nodup)
    (hfields : ∀ f ∈ fields, P f.2) : P (.record name fields)
  array {path : ScopePath} {env : Environment} {r : Source.IndexRange} {low : Int32} {len : Nat}
    {elem : Ty} (hdim : dimension path env r = .ok (low, len)) (helem : P elem) :
    P (.array low len elem)

variable {path : ScopePath} {env env' : Environment} {P : Ty → Prop}

section

variable {t : Ty}

lemma mem_tys_of_types {n : String} (h : (n, t) ∈ env.types) : t ∈ env.tys := by
  simp only [tys, List.mem_append, List.mem_map]
  exact .inl (.inl ⟨(n, t), h, rfl⟩)

lemma forall_mem_tys (htypes : ∀ t ∈ env.types, P t.2) (hvars : ∀ v ∈ env.vars, P v.2)
    (hparams : ∀ r ∈ env.routines, ∀ p ∈ r.2.params, P p.ty)
    (hresults : ∀ r ∈ env.routines, ∀ t ∈ r.2.result, P t) : ∀ t ∈ env.tys, P t := by
  intro t ht
  simp only [tys, List.mem_append, List.mem_map, List.mem_flatMap, Option.mem_toList] at ht
  rcases ht with (⟨d, hd, rfl⟩ | ⟨v, hv, rfl⟩) | ⟨r, hr, ⟨q, hq, rfl⟩ | hres⟩
  · exact htypes d hd
  · exact hvars v hv
  · exact hparams r hr q hq
  · exact hresults r hr t hres

lemma mem_tys_of_typeOf {ref : TypeRef} (h : env.typeOf ref = .ok t) :
    (∃ b, t = .basic b) ∨ t ∈ env.tys := by
  cases ref with
  | basic b =>
    cases h
    exact .inl ⟨b, rfl⟩
  | named n =>
    simp only [Environment.typeOf, Constant.orError_eq_ok, List.lookup_eq_some_iff] at h
    obtain ⟨before, after, hsplit, -⟩ := h
    exact .inr (mem_tys_of_types (n := n) (by simp [hsplit]))

lemma typeOf_of_passing {routine : String} {p : Source.Param} {q : Passing}
    (h : passing env routine p = .ok q) : ∃ ref, env.typeOf ref = .ok q.ty := by
  simp only [passing, bind_eq_ok] at h
  obtain ⟨u, hu, h⟩ := h
  obtain ⟨-, h⟩ := ok_of_guard h
  rw [← pure_eq_ok.mp h]
  exact ⟨p.ty, hu⟩

lemma typeOf_of_resultOf {heading : Source.Heading} {r : Option Ty}
    (h : resultOf env heading = .ok r) (ht : t ∈ r) : ∃ ref, env.typeOf ref = .ok t := by
  unfold resultOf at h
  split at h
  next =>
    cases h
    cases ht
  next ref _ =>
    simp only [bind_eq_ok] at h
    obtain ⟨u, hu, h⟩ := h
    obtain ⟨-, h⟩ := ok_of_guard h
    cases h
    cases ht
    exact ⟨ref, hu⟩

end

namespace Inherited

lemma typeOf (hP : Inherited P) (henv : ∀ t ∈ env.tys, P t) {ref : TypeRef} {t : Ty}
    (h : env.typeOf ref = .ok t) : P t := by
  rcases mem_tys_of_typeOf h with ⟨b, rfl⟩ | ht
  · exact hP.basic b
  · exact henv t ht

lemma fieldsOf (hP : Inherited P) (henv : ∀ t ∈ env.tys, P t) {done fields : List (String × Ty)}
    {refs : List (String × TypeRef)} (hdone : ∀ f ∈ done, P f.2)
    (h : fieldsOf path env done refs = .ok fields) : ∀ f ∈ fields, P f.2 := by
  induction refs generalizing done with
  | nil =>
    cases h
    exact hdone
  | cons ref rest ih =>
    obtain ⟨name, ref⟩ := ref
    simp only [Environment.fieldsOf, bind_eq_ok] at h
    obtain ⟨t, ht, h⟩ := h
    obtain ⟨-, h⟩ := ok_of_guard h
    exact ih (forall_mem_concat hdone (hP.typeOf henv ht)) h

lemma arrayOf (hP : Inherited P) {dims : List (Int32 × Nat)} {elem : Ty}
    (hdims : ∀ d ∈ dims, ∃ r, dimension path env r = .ok d) (helem : P elem) :
    P (arrayOf dims elem) := by
  induction dims with
  | nil => exact helem
  | cons d dims ih =>
    obtain ⟨r, hr⟩ := hdims d List.mem_cons_self
    exact hP.array hr (ih fun x hx => hdims x (List.mem_cons_of_mem _ hx))

lemma specify (hP : Inherited P) (henv : ∀ t ∈ env.tys, P t) {name : String} {spec : TypeSpec}
    {ty : Ty} (h : specify path env name spec = .ok (env', ty)) : P ty := by
  match spec with
  | .basic b =>
    cases h
    exact hP.basic b
  | .enum values =>
    simp only [Environment.specify, bind_eq_ok, pure_eq_ok, Prod.mk.injEq] at h
    obtain ⟨-, -, -, rfl⟩ := h
    exact hP.enum name
  | .record refs =>
    simp only [Environment.specify, bind_eq_ok, pure_eq_ok, Prod.mk.injEq] at h
    obtain ⟨fields, hfields, -, rfl⟩ := h
    have hnone : (([] : List (String × Ty)).map Prod.fst).Nodup := List.nodup_nil
    exact hP.record (fieldsOf_nodup hnone hfields)
      (hP.fieldsOf henv (List.forall_mem_nil _) hfields)
  | .array ranges elem =>
    simp only [Environment.specify, bind_eq_ok, pure_eq_ok, Prod.mk.injEq] at h
    obtain ⟨dims, hdims, t, ht, -, rfl⟩ := h
    exact hP.arrayOf (forall_of_mapM_eq_ok (fun r _ hd => ⟨r, hd⟩) hdims) (hP.typeOf henv ht)
  | .alias n =>
    simp only [Environment.specify, bind_eq_ok, pure_eq_ok, Prod.mk.injEq] at h
    obtain ⟨t, ht, -, rfl⟩ := h
    exact hP.typeOf henv ht

/-- Every step adds only types of the property. -/
lemma step (hP : Inherited P) (henv : ∀ t ∈ env.tys, P t) {s : Step}
    (h : s.run env = .ok env') : ∀ t ∈ env'.tys, P t := by
  intro t ht
  match s with
  | .declare path (.const n e) =>
    obtain ⟨-, c, -, rfl⟩ := declareConst_ok h
    exact henv t ht
  | .declare path (.type n spec) =>
    obtain ⟨-, mid, ty, hspec, rfl⟩ := declareType_ok h
    have hty := hP.specify henv hspec
    obtain ⟨consts, rfl⟩ := specify_keeps hspec
    have hmem : t ∈ env.tys ∨ t = ty := by
      simp only [tys, addType, List.map_append, List.mem_append] at ht ⊢
      simp only [List.map_cons, List.map_nil, List.mem_singleton] at ht
      tauto
    rcases hmem with hmem | rfl
    · exact henv t hmem
    · exact hty
  | .var path n ref =>
    obtain ⟨-, h⟩ := ok_of_guard h
    simp only [bind_eq_ok, pure_eq_ok] at h
    obtain ⟨u, hu, rfl⟩ := h
    have hmem : t ∈ env.tys ∨ t = u := by
      simp only [tys, List.map_append, List.mem_append] at ht ⊢
      simp only [List.map_cons, List.map_nil, List.mem_singleton] at ht
      tauto
    rcases hmem with hmem | rfl
    · exact henv t hmem
    · exact hP.typeOf henv hu
  | .heading path seen (first, b) =>
    obtain ⟨-, h⟩ := ok_of_guard h
    simp only [bind_eq_ok] at h
    obtain ⟨params, hparams, result, hresult, h⟩ := h
    cases h
    have hmem : t ∈ env.tys ∨ (∃ q ∈ params, q.ty = t) ∨ t ∈ result := by
      simp only [tys, List.flatMap_append, List.mem_append] at ht ⊢
      simp only [List.flatMap_cons, List.flatMap_nil, List.append_nil, List.mem_append,
        List.mem_map (l := params), Option.mem_toList] at ht
      rcases ht with ht | ht | ht | ht
      · exact .inl (.inl ht)
      · exact .inl (.inr ht)
      · exact .inr (.inl ht)
      · exact .inr (.inr ht)
    rcases hmem with hmem | ⟨q, hq, rfl⟩ | hmem
    · exact henv t hmem
    · have href := forall_of_mapM_eq_ok (fun _ _ hp => typeOf_of_passing hp) hparams q hq
      exact hP.typeOf henv href.choose_spec
    · obtain ⟨ref, href⟩ := typeOf_of_resultOf hresult hmem
      exact hP.typeOf henv href

theorem forall_mem_tys (hP : Inherited P) {p : Source.Program} (h : ofProgram p = .ok env) :
    ∀ t ∈ env.tys, P t :=
  of_ofProgram (P := fun env => ∀ t ∈ env.tys, P t) (List.forall_mem_nil _)
    (fun _ _ _ henv hrun => hP.step henv hrun) h

end Inherited

end Environment

end PascalJvm
