import Mathlib.Tactic
import PascalJvm.Proofs.Declarations
import PascalJvm.Proofs.Outline

/-!
# Declarations, step by step

The environment of a program is built in steps, one for each declared constant, type, program
variable and heading: the constants of a block, then its types, its variables and its headings,
and then the blocks inside it. Each step only adds to the tables of constants and types, and
what it adds depends on the names that it uses. A step can fail for its names only if one that
it uses is not there, or one that it declares is there already.
-/
namespace PascalJvm

namespace Source

mutual

/-- The constants that an expression names. -/
def ConstExpr.names : ConstExpr → List String
  | .name n => [n]
  | .call _ args => namesOfAll args
  | .unary _ x => x.names
  | .binary _ a b => a.names ++ b.names
  | _ => []

def namesOfAll : List ConstExpr → List String
  | [] => []
  | x :: xs => x.names ++ namesOfAll xs

end

def TypeRef.names : TypeRef → List String
  | .basic _ => []
  | .named n => [n]

def IndexRange.names (r : IndexRange) : List String := (r.low.elim [] ConstExpr.names) ++ r.high.names

/-- The types of the parameters and of the result. -/
def Heading.types (h : Heading) : List TypeRef := h.params.map (·.ty) ++ h.result.toList

namespace Declaration

/-- The constants that are declared: one, or the values of an enumeration. -/
def constants : Declaration → List String
  | .const n _ => [n]
  | .type _ (.enum values) => values
  | .type _ _ => []

def types : Declaration → List String
  | .const _ _ => []
  | .type n _ => [n]

def usedConstants : Declaration → List String
  | .const _ e => e.names
  | .type _ (.array ranges _) => ranges.flatMap IndexRange.names
  | .type _ _ => []

def usedTypes : Declaration → List String
  | .type _ (.alias n) => [n]
  | .type _ (.record fields) => fields.flatMap (·.2.names)
  | .type _ (.array _ elem) => elem.names
  | _ => []

end Declaration
end Source

namespace Environment

open Source (Declaration ConstExpr TypeRef TypeSpec Heading Block)
open Constant (orError)

inductive Step
  | declare (path : ScopePath) (d : Declaration)
  | var (path : ScopePath) (name : String) (ty : TypeRef)
  /-- a heading after those of `seen` -/
  | heading (path : ScopePath) (seen : List String) (routine : Heading × Block)

def Step.run (env : Environment) : Step → Except CheckError Environment
  | .declare path (.const n e) => declareConst path env (n, e)
  | .declare path (.type n spec) => declareType path env (n, spec)
  | .var path n ty => declareVar path env (n, ty)
  | .heading path seen routine => declareHeadings path env seen [routine]

def headingSteps (path : ScopePath) (seen : List String) : List (Heading × Block) → List Step
  | [] => []
  | r :: rest => .heading path seen r :: headingSteps path (r.1.name :: seen) rest

/-- The steps for what a block itself declares. -/
def ownSteps (path : ScopePath) (b : Block) : List Step :=
  b.consts.map (fun d => .declare path (.const d.1 d.2)) ++
    (b.types.map (fun d => .declare path (.type d.1 d.2)) ++
      ((if path.isEmpty then b.vars.map fun d => .var path d.1 d.2 else []) ++
        headingSteps path [] b.routines))

/-- The declarations of constants and types among the steps of a block itself. -/
lemma declare_mem_ownSteps {path q : ScopePath} {b : Block} {d : Declaration} :
    .declare q d ∈ ownSteps path b ↔
      q = path ∧ ((∃ x ∈ b.consts, d = .const x.1 x.2) ∨ ∃ x ∈ b.types, d = .type x.1 x.2) := by
  have hheadings (seen : List String) (rs : List (Heading × Block)) :
      Step.declare q d ∉ headingSteps path seen rs := by
    induction rs generalizing seen with
    | nil => simp [headingSteps]
    | cons r rest ih => simp [headingSteps, ih]
  have hvars : Step.declare q d ∉ (if path.isEmpty then b.vars.map fun d => Step.var path d.1 d.2
      else []) := by
    split_ifs <;> simp
  simp only [ownSteps, List.mem_append, List.mem_map, Step.declare.injEq, hheadings, hvars,
    or_false]
  constructor
  · rintro (⟨x, hx, rfl, rfl⟩ | ⟨x, hx, rfl, rfl⟩)
    · exact ⟨rfl, .inl ⟨x, hx, rfl⟩⟩
    · exact ⟨rfl, .inr ⟨x, hx, rfl⟩⟩
  · rintro ⟨rfl, ⟨x, hx, rfl⟩ | ⟨x, hx, rfl⟩⟩
    · exact .inl ⟨x, hx, rfl, rfl⟩
    · exact .inr ⟨x, hx, rfl, rfl⟩

mutual

/-- The steps for a block and all blocks inside it. -/
def blockSteps (path : ScopePath) : Block → List Step
  | ⟨consts, types, vars, routines, body⟩ =>
      ownSteps path ⟨consts, types, vars, routines, body⟩ ++ nestedSteps path routines

def nestedSteps (path : ScopePath) : List (Heading × Block) → List Step
  | [] => []
  | (h, b) :: rest => blockSteps (path ++ [h.name]) b ++ nestedSteps path rest

end

variable {path : ScopePath} {env env' next : Environment}

lemma declareHeadings_eq_steps (seen : List String) (rs : List (Heading × Block)) :
    declareHeadings path env seen rs = (headingSteps path seen rs).foldlM Step.run env := by
  induction rs generalizing env seen with
  | nil => rfl
  | cons r rest ih =>
    obtain ⟨h, b⟩ := r
    simp only [headingSteps, List.foldlM_cons, Step.run, declareHeadings]
    split_ifs
    · rfl
    · simp only [bind_assoc, ← ih]
      rfl

lemma declareOwn_eq_steps (b : Block) :
    declareOwn path env b = (ownSteps path b).foldlM Step.run env := by
  simp only [declareOwn, ownSteps, List.foldlM_append, List.foldlM_map, Step.run,
    declareHeadings_eq_steps]
  split_ifs
  · simp only [List.foldlM_map]
    rfl
  · rfl

mutual

theorem declareBlock_eq_steps (path : ScopePath) (env : Environment) (b : Block) :
    declareBlock path env b = (blockSteps path b).foldlM Step.run env := by
  match b with
  | ⟨consts, types, vars, routines, body⟩ =>
    rw [declareBlock, blockSteps, List.foldlM_append, declareOwn_eq_steps]
    congr 1
    funext env'
    exact declareNested_eq_steps path env' routines

theorem declareNested_eq_steps (path : ScopePath) (env : Environment)
    (rs : List (Heading × Block)) :
    declareNested path env rs = (nestedSteps path rs).foldlM Step.run env := by
  match rs with
  | [] => rfl
  | (h, b) :: rest =>
    rw [declareNested, nestedSteps, List.foldlM_append, declareBlock_eq_steps]
    congr 1
    funext env'
    exact declareNested_eq_steps path env' rest

end

/-- The names that a step declares, of one sort. -/
def Step.declared (names : Declaration → List String) : Step → List String
  | .declare _ d => names d
  | _ => []

/-- The entries for the values of an enumeration, numbered from `n`. -/
def valuesOf (ty : String) : Nat → List String → List (String × Constant)
  | _, [] => []
  | n, v :: vs => (v, .enum (Int32.ofNat n) ty) :: valuesOf ty (n + 1) vs

lemma map_fst_valuesOf (ty : String) (n : Nat) (vs : List String) :
    (valuesOf ty n vs).map Prod.fst = vs := by
  induction vs generalizing n with
  | nil => rfl
  | cons v vs ih => rw [valuesOf, List.map_cons, ih]

section

variable {α : Type} {xs ys : List (String × α)} {n : String} {a : α}

lemma lookup_eq_none_iff_notMem : xs.lookup n = none ↔ n ∉ xs.map Prod.fst := by
  rw [List.lookup_eq_none_iff]
  simp only [List.mem_map, not_exists, not_and, bne_iff_ne]
  exact ⟨fun h x hx he => h x hx he.symm, fun h x hx he => h x hx he.symm⟩

lemma lookup_append_of_some (h : xs.lookup n = some a) : (xs ++ ys).lookup n = some a := by
  rw [List.lookup_append, h, Option.some_or]

lemma lookup_append_of_notMem (h : n ∉ xs.map Prod.fst) : (xs ++ ys).lookup n = ys.lookup n := by
  rw [List.lookup_append, lookup_eq_none_iff_notMem.mpr h, Option.none_or]

lemma lookup_of_mem (hn : (xs.map Prod.fst).Nodup) (h : (n, a) ∈ xs) : xs.lookup n = some a := by
  induction xs with
  | nil => cases h
  | cons x xs ih =>
    obtain ⟨m, b⟩ := x
    rw [List.map_cons, List.nodup_cons] at hn
    rcases List.mem_cons.mp h with hx | hxs
    · cases hx
      exact List.lookup_cons_self
    · have hne : n ≠ m := by
        rintro rfl
        exact hn.1 (List.mem_map.mpr ⟨(n, a), hxs, rfl⟩)
      rw [List.lookup_cons, beq_eq_false_iff_ne.mpr hne]
      exact ih hn.2 hxs

end

lemma isConst_eq_false_iff {n : String} : env.isConst n = false ↔ n ∉ env.consts.map Prod.fst := by
  rw [isConst, Option.isSome_eq_false_iff, Option.isNone_iff_eq_none, lookup_eq_none_iff_notMem]

lemma declareValues_eq_ok {ty : String} {n : Nat} {vs : List String} :
    declareValues path ty env n vs = .ok env' ↔ (env.consts.map Prod.fst).Disjoint vs ∧ vs.Nodup ∧
      env' = { env with consts := env.consts ++ valuesOf ty n vs } := by
  induction vs generalizing env n with
  | nil => simp [declareValues, valuesOf, eq_comm]
  | cons v vs ih =>
    rw [declareValues]
    by_cases hv : v ∈ env.consts.map Prod.fst
    · have hconst : env.isConst v = true := by
        rw [← Bool.not_eq_false, isConst_eq_false_iff]
        exact not_not_intro hv
      rw [if_pos hconst]
      simp only [reduceCtorEq, false_iff]
      exact fun h => h.1 hv List.mem_cons_self
    · rw [if_neg (by rw [isConst_eq_false_iff.mpr hv]; exact Bool.false_ne_true), ih]
      simp only [addConst, valuesOf, List.map_append, List.map_cons, List.map_nil,
        List.append_assoc, List.singleton_append, List.disjoint_append_left,
        List.disjoint_cons_right, List.nodup_cons, List.singleton_disjoint]
      tauto

/-- What a step adds to the tables of constants and types. -/
structure Adds (env env' : Environment) (constants types : List String)
    (newConsts : List (String × Constant)) (newTypes : List (String × Ty)) : Prop where
  consts_eq : env'.consts = env.consts ++ newConsts
  types_eq : env'.types = env.types ++ newTypes
  names : newConsts.map Prod.fst = constants
  typeNames : newTypes.map Prod.fst = types
  fresh : (env.consts.map Prod.fst).Disjoint constants
  typesFresh : (env.types.map Prod.fst).Disjoint types
  nodup : constants.Nodup
  typesNodup : types.Nodup

lemma specify_adds {name : String} {spec : TypeSpec} {ty : Ty}
    (h : specify path env name spec = .ok (env', ty)) : ∃ newConsts,
      env'.consts = env.consts ++ newConsts ∧ env'.types = env.types ∧
      newConsts.map Prod.fst = (Declaration.type name spec).constants ∧
      (env.consts.map Prod.fst).Disjoint (Declaration.type name spec).constants ∧
      (Declaration.type name spec).constants.Nodup := by
  cases spec with
  | enum values =>
    simp only [specify, bind_eq_ok, pure_eq_ok, Prod.mk.injEq, declareValues_eq_ok] at h
    obtain ⟨_, ⟨hfresh, hnodup, rfl⟩, rfl, -⟩ := h
    exact ⟨_, rfl, rfl, map_fst_valuesOf _ _ _, hfresh, hnodup⟩
  | _ =>
    simp only [specify, bind_eq_ok, pure_eq_ok, Prod.mk.injEq, Except.ok.injEq] at h
    obtain rfl : env = env' := by tauto
    exact ⟨[], by simp [Declaration.constants]⟩

lemma declareConst_ok {n : String} {e : ConstExpr} (h : declareConst path env (n, e) = .ok env') :
    n ∉ env.consts.map Prod.fst ∧
      ∃ c, Constant.eval env.consts e = .ok c ∧ env' = env.addConst n c := by
  obtain ⟨hfresh, h⟩ := ok_of_guard h
  simp only [bind_eq_ok, pure_eq_ok] at h
  obtain ⟨c, hc, rfl⟩ := h
  rw [Bool.not_eq_true, isConst_eq_false_iff] at hfresh
  exact ⟨hfresh, c, hc, rfl⟩

lemma declareType_ok {n : String} {spec : TypeSpec} (h : declareType path env (n, spec) = .ok env') :
    n ∉ env.types.map Prod.fst ∧
      ∃ mid ty, specify path env n spec = .ok (mid, ty) ∧ env' = mid.addType n ty := by
  obtain ⟨hfresh, h⟩ := ok_of_guard h
  simp only [bind_eq_ok, pure_eq_ok] at h
  obtain ⟨⟨mid, ty⟩, hspec, rfl⟩ := h
  rw [Option.not_isSome_iff_eq_none, lookup_eq_none_iff_notMem] at hfresh
  exact ⟨hfresh, mid, ty, hspec, rfl⟩

lemma Adds.of_tables_eq (hconsts : env'.consts = env.consts) (htypes : env'.types = env.types) :
    Adds env env' [] [] [] [] := by
  constructor <;> simp [hconsts, htypes]

lemma Step.adds {s : Step} (h : s.run env = .ok env') : ∃ newConsts newTypes,
    Adds env env' (s.declared Declaration.constants) (s.declared Declaration.types)
      newConsts newTypes := by
  match s with
  | .declare path (.const n e) =>
    obtain ⟨hfresh, c, -, rfl⟩ := declareConst_ok h
    refine ⟨[(n, c)], [], rfl, ?_, rfl, rfl, ?_, ?_, ?_, ?_⟩
    · simp [addConst]
    · simpa [Step.declared, Declaration.constants, List.disjoint_singleton] using hfresh
    · simp [Step.declared, Declaration.types]
    · simp [Step.declared, Declaration.constants]
    · simp [Step.declared, Declaration.types]
  | .declare path (.type n spec) =>
    obtain ⟨hfresh, mid, ty, hspec, rfl⟩ := declareType_ok h
    obtain ⟨newConsts, hconsts, htypes, hnames, hdisjoint, hnodup⟩ := specify_adds hspec
    refine ⟨newConsts, [(n, ty)], hconsts, ?_, hnames, rfl, hdisjoint, ?_, hnodup, ?_⟩
    · rw [addType, htypes]
    · simpa [Step.declared, Declaration.types, List.disjoint_singleton] using hfresh
    · simp [Step.declared, Declaration.types]
  | .var path n ty =>
    obtain ⟨-, h⟩ := ok_of_guard h
    simp only [bind_eq_ok, pure_eq_ok] at h
    obtain ⟨t, -, rfl⟩ := h
    exact ⟨[], [], .of_tables_eq rfl rfl⟩
  | .heading path seen (first, b) =>
    obtain ⟨-, h⟩ := ok_of_guard h
    simp only [bind_eq_ok] at h
    obtain ⟨params, -, result, -, h⟩ := h
    cases h
    exact ⟨[], [], .of_tables_eq rfl rfl⟩

/-- Whatever is in the tables of `env` is in those of `env'`. -/
structure KeptIn (env env' : Environment) : Prop where
  consts {n : String} {c : Constant} (h : env.consts.lookup n = some c) :
    env'.consts.lookup n = some c
  types {n : String} {t : Ty} (h : env.types.lookup n = some t) : env'.types.lookup n = some t

lemma KeptIn.refl (env : Environment) : env.KeptIn env := ⟨id, id⟩

lemma KeptIn.trans (h : env.KeptIn next) (h' : next.KeptIn env') : env.KeptIn env' :=
  ⟨fun hc => h'.consts (h.consts hc), fun ht => h'.types (h.types ht)⟩

lemma Step.keptIn {s : Step} (h : s.run env = .ok env') : env.KeptIn env' := by
  obtain ⟨newConsts, newTypes, hadds⟩ := s.adds h
  constructor
  · intro n c hc
    rw [hadds.consts_eq]
    exact lookup_append_of_some hc
  · intro n t ht
    rw [hadds.types_eq]
    exact lookup_append_of_some ht

/-- Each step is taken somewhere, and what it leaves stays in the tables. -/
theorem steps_taken {steps : List Step} (h : steps.foldlM Step.run env = .ok env') :
    env.KeptIn env' ∧ ∀ s ∈ steps, ∃ cur next, s.run cur = .ok next ∧ cur.KeptIn env' ∧
      next.KeptIn env' := by
  induction steps generalizing env with
  | nil =>
    simp only [List.foldlM_nil, pure_eq_ok] at h
    exact ⟨h ▸ .refl env, by simp⟩
  | cons s rest ih =>
    simp only [List.foldlM_cons, bind_eq_ok] at h
    obtain ⟨next, hnext, h⟩ := h
    obtain ⟨hkept, hrest⟩ := ih h
    have hkept' := (s.keptIn hnext).trans hkept
    exact ⟨hkept', List.forall_mem_cons.mpr ⟨⟨env, next, hnext, hkept', hkept⟩, hrest⟩⟩

section

variable {sub : Environment}

/-- The value of an expression depends on the constants that it names. -/
theorem eval_mono {known known' : List (String × Constant)} (e : ConstExpr)
    (hkept : ∀ n ∈ e.names, ∀ c, known.lookup n = some c → known'.lookup n = some c) {v : Constant}
    (h : Constant.eval known e = .ok v) : Constant.eval known' e = .ok v := by
  match e with
  | .int i | .real x | .bool b | .char c | .text t => exact h
  | .name n =>
    simp only [Constant.eval, Constant.orError_eq_ok] at h ⊢
    exact hkept n (List.mem_singleton.mpr rfl) v h
  | .call f [x] =>
    simp only [Constant.eval, bind_eq_ok] at h ⊢
    obtain ⟨a, ha, h⟩ := h
    exact ⟨a, eval_mono x (fun n hn => hkept n (List.mem_append_left _ hn)) ha, h⟩
  | .call f [] => exact h
  | .call f (_ :: _ :: _) => exact h
  | .unary op x =>
    simp only [Constant.eval, bind_eq_ok] at h ⊢
    obtain ⟨a, ha, h⟩ := h
    exact ⟨a, eval_mono x hkept ha, h⟩
  | .binary op a b =>
    simp only [Constant.eval, bind_eq_ok] at h ⊢
    obtain ⟨x, hx, y, hy, h⟩ := h
    exact ⟨x, eval_mono a (fun n hn => hkept n (List.mem_append_left _ hn)) hx, y,
      eval_mono b (fun n hn => hkept n (List.mem_append_right _ hn)) hy, h⟩

lemma typeOf_mono {ref : TypeRef} {t : Ty}
    (hkept : ∀ n ∈ ref.names, ∀ t, env.types.lookup n = some t → sub.types.lookup n = some t)
    (h : env.typeOf ref = .ok t) : sub.typeOf ref = .ok t := by
  cases ref with
  | basic b => exact h
  | named n =>
    simp only [typeOf, Constant.orError_eq_ok] at h ⊢
    exact hkept n (List.mem_singleton.mpr rfl) t h

lemma fieldsOf_mono {refs : List (String × TypeRef)} {done fields : List (String × Ty)}
    (hkept : ∀ n ∈ refs.flatMap (·.2.names), ∀ t, env.types.lookup n = some t →
      sub.types.lookup n = some t)
    (h : fieldsOf path env done refs = .ok fields) : fieldsOf path sub done refs = .ok fields := by
  induction refs generalizing done with
  | nil => exact h
  | cons ref rest ih =>
    obtain ⟨name, ref⟩ := ref
    rw [List.flatMap_cons] at hkept
    simp only [fieldsOf, bind_eq_ok] at h ⊢
    obtain ⟨t, ht, h⟩ := h
    refine ⟨t, typeOf_mono (fun n hn => hkept n (List.mem_append_left _ hn)) ht, ?_⟩
    split_ifs at h ⊢
    · exact h
    · exact ih (fun n hn => hkept n (List.mem_append_right _ hn)) h

lemma dimension_mono {r : Source.IndexRange} {d : Int32 × Nat}
    (hkept : ∀ n ∈ r.names, ∀ c, env.consts.lookup n = some c → sub.consts.lookup n = some c)
    (h : dimension path env r = .ok d) : dimension path sub r = .ok d := by
  obtain ⟨low, high⟩ := r
  simp only [dimension, bind_eq_ok] at h ⊢
  obtain ⟨i, ⟨c, hc, hi⟩, h⟩ := h
  have hc' := eval_mono high (fun n hn => hkept n (List.mem_append_right _ hn)) hc
  refine ⟨i, ⟨c, hc', hi⟩, ?_⟩
  cases low with
  | none => exact h
  | some e =>
    simp only [bind_eq_ok] at h ⊢
    obtain ⟨j, ⟨b, hb, hj⟩, h⟩ := h
    have hb' := eval_mono e (fun n hn => hkept n (List.mem_append_left _ hn)) hb
    exact ⟨j, ⟨b, hb', hj⟩, h⟩

lemma mapM_mono {ε α β : Type} {f g : α → Except ε β} {xs : List α} {ys : List β}
    (hfg : ∀ x ∈ xs, ∀ y, f x = .ok y → g x = .ok y) (h : xs.mapM f = .ok ys) :
    xs.mapM g = .ok ys := by
  induction xs generalizing ys with
  | nil => exact h
  | cons x xs ih =>
    simp only [List.mapM_cons, bind_eq_ok] at h ⊢
    obtain ⟨y, hy, rest, hrest, h⟩ := h
    exact ⟨y, hfg x List.mem_cons_self y hy, rest,
      ih (fun x hx => hfg x (List.mem_cons_of_mem _ hx)) hrest, h⟩

/-- A type depends on the names that its declaration uses, and the constants that come with it on
nothing else. -/
lemma specify_mono {name : String} {spec : TypeSpec} {ty : Ty}
    (hconsts : ∀ n ∈ (Declaration.type name spec).usedConstants, ∀ c,
      env.consts.lookup n = some c → sub.consts.lookup n = some c)
    (htypes : ∀ n ∈ (Declaration.type name spec).usedTypes, ∀ t,
      env.types.lookup n = some t → sub.types.lookup n = some t)
    (hfresh : (sub.consts.map Prod.fst).Disjoint (Declaration.type name spec).constants)
    (h : specify path env name spec = .ok (env', ty)) :
    ∃ sub' newConsts, specify path sub name spec = .ok (sub', ty) ∧
      env'.consts = env.consts ++ newConsts ∧ sub'.consts = sub.consts ++ newConsts := by
  match spec with
  | .basic b =>
    cases h
    exact ⟨sub, [], rfl, by simp⟩
  | .enum values =>
    simp only [specify, bind_eq_ok, pure_eq_ok, Prod.mk.injEq, declareValues_eq_ok] at h ⊢
    obtain ⟨_, ⟨-, hnodup, rfl⟩, rfl, rfl⟩ := h
    exact ⟨_, valuesOf name 0 values, ⟨_, ⟨hfresh, hnodup, rfl⟩, rfl, rfl⟩, rfl, rfl⟩
  | .record fields =>
    simp only [specify, bind_eq_ok, pure_eq_ok, Prod.mk.injEq] at h ⊢
    obtain ⟨fs, hfs, rfl, rfl⟩ := h
    exact ⟨sub, [], ⟨fs, fieldsOf_mono htypes hfs, rfl, rfl⟩, by simp⟩
  | .array ranges elem =>
    simp only [specify, bind_eq_ok, pure_eq_ok, Prod.mk.injEq] at h ⊢
    obtain ⟨dims, hdims, t, ht, rfl, rfl⟩ := h
    have hdims' := mapM_mono (fun r hr d hd => dimension_mono
      (fun n hn => hconsts n (List.mem_flatMap.mpr ⟨r, hr, hn⟩)) hd) hdims
    exact ⟨sub, [], ⟨dims, hdims', t, typeOf_mono htypes ht, rfl, rfl⟩, by simp⟩
  | .alias n =>
    simp only [specify, bind_eq_ok, pure_eq_ok, Prod.mk.injEq] at h ⊢
    obtain ⟨t, ht, rfl, rfl⟩ := h
    exact ⟨sub, [], ⟨t, typeOf_mono htypes ht, rfl, rfl⟩, by simp⟩

end

/-- A type that a variable or a heading has, and the types that are declared in its block and in
the blocks around it. -/
structure Mention where
  declared : List String
  ty : TypeRef

/-- The error does not concern the name of a constant or a type, except for one that a variable or
a heading has for its type, and that no block around it declares. -/
def Tolerated (mentions : List Mention) : CheckError → Prop
  | .unknown .const _ => False
  | .unknown .type n => ∃ m ∈ mentions, m.ty = .named n ∧ n ∉ m.declared
  | .redefined .const _ _ => False
  | .redefined .type _ _ => False
  | _ => True

/-- Whenever `x` fails, the error has the property. -/
def Fails {α : Type} (P : CheckError → Prop) (x : Except CheckError α) : Prop :=
  ∀ e, x = .error e → P e

namespace Fails

variable {α β : Type} {P : CheckError → Prop}

lemma ok (a : α) : Fails P (.ok a) := nofun

lemma error {e : CheckError} (h : P e) : Fails P (.error e : Except CheckError α) := by
  intro e' he
  cases he
  exact h

lemma bind {x : Except CheckError α} {f : α → Except CheckError β} (hx : Fails P x)
    (hf : ∀ a, x = .ok a → Fails P (f a)) : Fails P (x >>= f) := by
  cases x with
  | error e => exact .error (hx e rfl)
  | ok a => exact hf a rfl

lemma guard {c : Prop} [Decidable c] {e : CheckError} {f : β → Except CheckError α}
    {x : Except CheckError α} (he : c → P e) (hx : Fails P x) :
    Fails P (if c then (throw e >>= f) else x) := by
  split_ifs with hc
  · exact .error (he hc)
  · exact hx

lemma orError {e : CheckError} {x : Option α} (h : x = none → P e) :
    Fails P (Constant.orError e x) := by
  cases x with
  | none => exact .error (h rfl)
  | some a => exact .ok a

lemma map {x : Except CheckError α} {f : α → β} (hx : Fails P x) : Fails P (x.map f) := by
  cases x with
  | error e => exact .error (hx e rfl)
  | ok a => exact .ok (f a)

lemma mapM {f : α → Except CheckError β} {xs : List α} (h : ∀ x ∈ xs, Fails P (f x)) :
    Fails P (xs.mapM f) := by
  induction xs with
  | nil => exact .ok []
  | cons x xs ih =>
    rw [List.mapM_cons]
    exact (h x List.mem_cons_self).bind fun _ _ =>
      (ih fun y hy => h y (List.mem_cons_of_mem _ hy)).bind fun _ _ => .ok _

end Fails

section

variable {mentions : List Mention}

lemma unary_fails (op : UnOp) (a : Constant) : Fails (Tolerated mentions) (Constant.unary op a) := by
  cases op <;> cases a <;> first | exact .ok _ | exact .error trivial |
    exact .map (.orError fun _ => trivial)

lemma apply_fails (f : String) (a : Constant) :
    Fails (Tolerated mentions) (Constant.apply f a) := by
  unfold Constant.apply
  split
  · exact .map (.orError fun _ => trivial)
  · split
    · split_ifs
      · exact .ok _
      · exact .error trivial
    · exact .error trivial
  · exact .error trivial

lemma binary_fails (op : BinOp) (a b : Constant) :
    Fails (Tolerated mentions) (Constant.binary op a b) := by
  unfold Constant.binary
  split
  · exact .map (.orError fun _ => trivial)
  · unfold Constant.mixedBinary
    split
    · exact .bind (.orError fun _ => trivial) fun _ _ => .bind (.orError fun _ => trivial) fun _ _ =>
        .ok _
    · exact .bind (.orError fun _ => trivial) fun _ _ => .bind (.orError fun _ => trivial) fun _ _ =>
        .ok _
    · exact .ok _
    · exact .error trivial

/-- A constant whose names are all known. -/
theorem eval_fails {known : List (String × Constant)} (e : ConstExpr)
    (h : e.names ⊆ known.map Prod.fst) : Fails (Tolerated mentions) (Constant.eval known e) := by
  match e with
  | .int i | .real x | .bool b | .char c | .text t => exact .ok _
  | .name n =>
    refine .orError fun hnone => ?_
    exact (lookup_eq_none_iff_notMem.mp hnone (h (List.mem_singleton.mpr rfl))).elim
  | .call f [x] =>
    rw [Constant.eval]
    exact (eval_fails x fun n hn => h (List.mem_append_left _ hn)).bind fun a _ => apply_fails f a
  | .call f [] => exact .error trivial
  | .call f (_ :: _ :: _) => exact .error trivial
  | .unary op x =>
    rw [Constant.eval]
    exact (eval_fails x h).bind fun a _ => unary_fails op a
  | .binary op a b =>
    rw [Constant.eval]
    exact (eval_fails a fun n hn => h (List.mem_append_left _ hn)).bind fun _ _ =>
      (eval_fails b fun n hn => h (List.mem_append_right _ hn)).bind fun _ _ => binary_fails op _ _

lemma typeOf_fails {ref : TypeRef} {P : CheckError → Prop}
    (h : ∀ n, ref = .named n → n ∉ env.types.map Prod.fst → P (.unknown .type n)) :
    Fails P (env.typeOf ref) := by
  cases ref with
  | basic b => exact .ok _
  | named n => exact .orError fun hnone => h n rfl (lookup_eq_none_iff_notMem.mp hnone)

lemma typeOf_fails_of_subset {ref : TypeRef} {P : CheckError → Prop}
    (h : ref.names ⊆ env.types.map Prod.fst) : Fails P (env.typeOf ref) := by
  refine typeOf_fails fun n hn hnot => ?_
  subst hn
  exact (hnot (h (List.mem_singleton.mpr rfl))).elim

lemma dimension_fails {r : Source.IndexRange} (h : r.names ⊆ env.consts.map Prod.fst) :
    Fails (Tolerated mentions) (dimension path env r) := by
  obtain ⟨low, high⟩ := r
  have hhigh : high.names ⊆ env.consts.map Prod.fst := fun n hn => h (List.mem_append_right _ hn)
  refine .bind (.bind (eval_fails high hhigh) fun _ _ => .orError fun _ => trivial) fun i _ => ?_
  have hlength (x : Int32 × Int32) : Fails (Tolerated mentions) (do
      if x.2.toInt ≤ 0 then throw (.lengthNotPositive path.text)
      return (x.1, x.2.toInt.toNat)) := .guard (fun _ => trivial) (.ok _)
  cases low with
  | none => exact .bind (.ok _) fun x _ => hlength x
  | some e =>
    have hlow : e.names ⊆ env.consts.map Prod.fst := fun n hn => h (List.mem_append_left _ hn)
    exact .bind (.bind (eval_fails e hlow) fun _ _ => .orError fun _ => trivial) fun _ _ =>
      .bind (.orError fun _ => trivial) fun _ _ => .bind (.ok _) fun x _ => hlength x

lemma fieldsOf_fails {done : List (String × Ty)} {refs : List (String × TypeRef)}
    (h : refs.flatMap (·.2.names) ⊆ env.types.map Prod.fst) :
    Fails (Tolerated mentions) (fieldsOf path env done refs) := by
  induction refs generalizing done with
  | nil => exact .ok _
  | cons ref rest ih =>
    obtain ⟨name, ref⟩ := ref
    rw [List.flatMap_cons, List.append_subset] at h
    exact .bind (typeOf_fails_of_subset h.1) fun t _ => .guard (fun _ => trivial) (ih h.2)

lemma declareValues_fails {P : CheckError → Prop} {ty : String} {n : Nat} {vs : List String}
    (h : (env.consts.map Prod.fst ++ vs).Nodup) : Fails P (declareValues path ty env n vs) := by
  rw [List.nodup_append'] at h
  rw [declareValues_eq_ok.mpr ⟨h.2.2, h.2.1, rfl⟩]
  exact .ok _

lemma specify_fails {name : String} {spec : TypeSpec}
    (hconsts : (Declaration.type name spec).usedConstants ⊆ env.consts.map Prod.fst)
    (htypes : (Declaration.type name spec).usedTypes ⊆ env.types.map Prod.fst)
    (hfresh : (env.consts.map Prod.fst ++ (Declaration.type name spec).constants).Nodup) :
    Fails (Tolerated mentions) (specify path env name spec) := by
  match spec with
  | .basic b => exact .ok _
  | .enum values => exact .bind (declareValues_fails hfresh) fun _ _ => .ok _
  | .record fields => exact .bind (fieldsOf_fails htypes) fun _ _ => .ok _
  | .array ranges elem =>
    refine .bind (.mapM fun r hr => dimension_fails fun n hn => hconsts ?_) fun _ _ =>
      .bind (typeOf_fails_of_subset htypes) fun _ _ => .ok _
    exact List.mem_flatMap.mpr ⟨r, hr, hn⟩
  | .alias n => exact .bind (typeOf_fails_of_subset htypes) fun _ _ => .ok _

/-- What a step uses is among the names, apart from the types of variables and headings, which are
mentioned with no more types than there are. -/
def Step.Supplied (mentions : List Mention) (constants types : List String) : Step → Prop
  | .declare _ d => d.usedConstants ⊆ constants ∧ d.usedTypes ⊆ types
  | .var _ _ ty => ∃ m ∈ mentions, m.ty = ty ∧ m.declared ⊆ types
  | .heading _ _ (h, _) => ∀ ty ∈ h.types, ∃ m ∈ mentions, m.ty = ty ∧ m.declared ⊆ types

lemma tolerated_of_mention {ty : TypeRef} {types : List String}
    (hm : ∃ m ∈ mentions, m.ty = ty ∧ m.declared ⊆ types) (htypes : env.types.map Prod.fst = types) :
    Fails (Tolerated mentions) (env.typeOf ty) := by
  refine typeOf_fails fun n hn hnot => ?_
  obtain ⟨m, hm, hty, hsub⟩ := hm
  rw [htypes] at hnot
  exact ⟨m, hm, hty.trans hn, fun hmem => hnot (hsub hmem)⟩

lemma heading_fails {seen : List String} {h : Heading} (b : Block) {types : List String}
    (hm : ∀ ty ∈ h.types, ∃ m ∈ mentions, m.ty = ty ∧ m.declared ⊆ types)
    (htypes : env.types.map Prod.fst = types) :
    Fails (Tolerated mentions) (declareHeadings path env seen [(h, b)]) := by
  refine .guard (fun _ => trivial) (.bind (.mapM fun p hp => ?_) fun params _ =>
    .bind ?_ fun result _ => .ok _)
  · refine .bind (tolerated_of_mention (hm p.ty ?_) htypes) fun _ _ =>
      .guard (fun _ => trivial) (.ok _)
    exact List.mem_append_left _ (List.mem_map.mpr ⟨p, hp, rfl⟩)
  · unfold resultOf
    split
    · exact .ok _
    · next ref href =>
      refine .bind (tolerated_of_mention (hm ref ?_) htypes) fun _ _ =>
        .guard (fun _ => trivial) (.ok _)
      rw [Heading.types, href]
      exact List.mem_append_right _ (List.mem_singleton.mpr rfl)

/-- A step whose names are there, and that declares new names, fails for other reasons only. -/
lemma Step.fails {s : Step} {constants types : List String}
    (hconsts : env.consts.map Prod.fst = constants) (htypes : env.types.map Prod.fst = types)
    (hs : s.Supplied mentions constants types)
    (hfresh : (constants ++ s.declared Declaration.constants).Nodup)
    (htypesFresh : (types ++ s.declared Declaration.types).Nodup) :
    Fails (Tolerated mentions) (s.run env) := by
  subst hconsts
  match s with
  | .declare path (.const n e) =>
    have hnew : n ∉ env.consts.map Prod.fst := fun hmem =>
      (List.nodup_append'.mp hfresh).2.2 hmem (List.mem_singleton.mpr rfl)
    refine .guard (fun hconst => ?_) (.bind (eval_fails e hs.1) fun _ _ => .ok _)
    rw [isConst_eq_false_iff.mpr hnew] at hconst
    cases hconst
  | .declare path (.type n spec) =>
    subst htypes
    have hnew : n ∉ env.types.map Prod.fst := fun hmem =>
      (List.nodup_append'.mp htypesFresh).2.2 hmem (List.mem_singleton.mpr rfl)
    refine .guard (fun htype => ?_) (.bind (specify_fails hs.1 hs.2 hfresh) fun _ _ => .ok _)
    rw [lookup_eq_none_iff_notMem.mpr hnew] at htype
    cases htype
  | .var path n ty =>
    exact .guard (fun _ => trivial) (.bind (tolerated_of_mention hs htypes) fun _ _ => .ok _)
  | .heading path seen (first, b) => exact heading_fails b hs htypes

/-- Every step is supplied by the names there are and by the steps before it. -/
def StepsSupplied (mentions : List Mention) (constants types : List String) : List Step → Prop
  | [] => True
  | s :: rest => s.Supplied mentions constants types ∧
      StepsSupplied mentions (constants ++ s.declared Declaration.constants)
        (types ++ s.declared Declaration.types) rest

/-- Steps that are supplied and declare each name once. -/
theorem steps_fail {steps : List Step} {constants types : List String}
    (hconsts : env.consts.map Prod.fst = constants) (htypes : env.types.map Prod.fst = types)
    (hs : StepsSupplied mentions constants types steps)
    (hfresh : (constants ++ steps.flatMap (Step.declared Declaration.constants)).Nodup)
    (htypesFresh : (types ++ steps.flatMap (Step.declared Declaration.types)).Nodup) :
    Fails (Tolerated mentions) (steps.foldlM Step.run env) := by
  induction steps generalizing env constants types with
  | nil => exact .ok _
  | cons s rest ih =>
    rw [List.flatMap_cons, ← List.append_assoc] at hfresh htypesFresh
    rw [List.foldlM_cons]
    refine .bind (s.fails hconsts htypes hs.1 hfresh.of_append_left htypesFresh.of_append_left)
      fun next hnext => ?_
    obtain ⟨newConsts, newTypes, hadds⟩ := s.adds hnext
    refine ih ?_ ?_ hs.2 hfresh htypesFresh
    · rw [hadds.consts_eq, List.map_append, hconsts, hadds.names]
    · rw [hadds.types_eq, List.map_append, htypes, hadds.typeNames]

end

end Environment
end PascalJvm
