import Mathlib.Data.List.Sort
import Mathlib.Data.String.Basic
import Mathlib.Tactic
import PascalJvm.Proofs.Bodies
import PascalJvm.Proofs.DeclaredTypes

/-!
# The order of the type table

The declared types are a table from names to types, and it does not matter in which order they
stand in it. The checker looks types up by their names only, which are distinct, and the records
of a program are collected in a list that is sorted by name. What is in that list is settled by the
declarations alone: a record that comes up twice, in whatever form, is the same record with the
same fields.
-/
namespace PascalJvm

open Typed (RecordTy Designator)

namespace Ty

variable {R : String → List (String × Ty) → Prop}

mutual

lemma eachRecord_iff_occurs {t : Ty} :
    t.EachRecord R ↔ ∀ name fields, Occurs (.record name fields) t → R name fields := by
  match t with
  | .basic _ | .enum _ =>
    refine iff_of_true trivial fun name fields h => ?_
    cases h
  | .array low len elem =>
    rw [EachRecord, eachRecord_iff_occurs]
    constructor
    · intro h name fields hoccurs
      cases hoccurs with
      | element hoccurs => exact h name fields hoccurs
    · exact fun h name fields hoccurs => h name fields (.element hoccurs)
  | .record n fs =>
    rw [EachRecord, eachFieldRecord_iff_occurs]
    constructor
    · rintro ⟨hself, hfields⟩ name fields hoccurs
      cases hoccurs with
      | refl => exact hself
      | field hu hoccurs => exact hfields _ hu name fields hoccurs
    · intro h
      exact ⟨h n fs .refl, fun f hf name fields hoccurs => h name fields (.field hf hoccurs)⟩

lemma eachFieldRecord_iff_occurs {fs : List (String × Ty)} :
    EachFieldRecord R fs ↔
      ∀ f ∈ fs, ∀ name fields, Occurs (.record name fields) f.2 → R name fields := by
  match fs with
  | [] => simp [EachFieldRecord]
  | (n, t) :: rest =>
    rw [EachFieldRecord, eachRecord_iff_occurs, eachFieldRecord_iff_occurs, List.forall_mem_cons]

end

end Ty

namespace Check

/-- Sorted by name, with no name twice. -/
def Ascending (known : List RecordTy) : Prop := known.Pairwise fun r x => r.name < x.name

lemma Ascending.insert {known : List RecordTy} (h : Ascending known) {r : RecordTy}
    (hnew : (known.any fun x => x.name = r.name) = false) : Ascending (insertRecord r known) := by
  induction known with
  | nil => exact List.pairwise_singleton _ _
  | cons x rest ih =>
    obtain ⟨hx, hrest⟩ := List.pairwise_cons.mp h
    simp only [List.any_cons, Bool.or_eq_false_iff, decide_eq_false_iff_not] at hnew
    rw [insertRecord]
    split_ifs with hlt
    · refine h.cons fun y hy => ?_
      rcases List.mem_cons.mp hy with rfl | hy
      · exact hlt
      · exact hlt.trans (hx y hy)
    · refine (ih hrest hnew.2).cons fun y hy => ?_
      rcases List.mem_cons.mp ((insertRecord_perm r rest).mem_iff.mp hy) with rfl | hy
      · exact lt_of_le_of_ne (not_lt.mp hlt) hnew.1
      · exact hx y hy

mutual

lemma addRecords_ascending {known : List RecordTy} (h : Ascending known) (t : Ty) :
    Ascending (addRecords known t) := by
  match t with
  | .record name fields =>
    rw [addRecords]
    split_ifs with hknown
    · exact h
    · exact addFieldRecords_ascending (h.insert (r := ⟨name, fields⟩) (by simpa using hknown)) fields
  | .array _ _ elem => exact addRecords_ascending h elem
  | .basic _ | .enum _ => exact h

lemma addFieldRecords_ascending {known : List RecordTy} (h : Ascending known)
    (fields : List (String × Ty)) : Ascending (addFieldRecords known fields) := by
  match fields with
  | [] => exact h
  | (_, t) :: rest => exact addFieldRecords_ascending (addRecords_ascending h t) rest

end

lemma records_ascending (types : List (String × Ty)) : Ascending (records types) := by
  have hfold (known : List RecordTy) (h : Ascending known) :
      Ascending (types.foldl (fun known t => addRecords known t.2) known) := by
    induction types generalizing known with
    | nil => exact h
    | cons t rest ih => exact ih _ (addRecords_ascending h t.2)
  exact hfold [] List.Pairwise.nil

/-- A list without repetition that is sorted by name is known by its members. -/
lemma Ascending.eq_of_mem_iff {xs ys : List RecordTy} (hxs : Ascending xs) (hys : Ascending ys)
    (h : ∀ r, r ∈ xs ↔ r ∈ ys) : xs = ys := by
  have : Std.Irrefl fun r x : RecordTy => r.name < x.name := ⟨fun r => lt_irrefl r.name⟩
  have : Std.Antisymm fun r x : RecordTy => r.name < x.name :=
    ⟨fun _ _ hrx hxr => absurd hxr hrx.asymm⟩
  exact List.Pairwise.eq_of_mem_iff hxs hys h

end Check

namespace Environment

variable {env env' : Environment}

/-- The same tables, with the types in another order. -/
abbrev withTypes (env : Environment) (types : List (String × Ty)) : Environment :=
  { env with types := types }

/-- No type name is declared twice. -/
lemma nodup_types {p : Source.Program} (h : ofProgram p = .ok env) :
    (env.types.map Prod.fst).Nodup := by
  refine of_ofProgram (P := fun env => (env.types.map Prod.fst).Nodup) List.nodup_nil ?_ h
  intro s env env' hnodup hrun
  obtain ⟨newConsts, newTypes, hadds⟩ := s.adds hrun
  rw [hadds.types_eq, List.map_append]
  refine hnodup.append ?_ ?_
  · rw [hadds.typeNames]
    exact hadds.typesNodup
  · rw [hadds.typeNames]
    exact hadds.typesFresh

/-- Where names are distinct, lookup does not depend on the order. -/
lemma lookup_of_perm {α : Type} {xs ys : List (String × α)} (hperm : ys.Perm xs)
    (hn : (xs.map Prod.fst).Nodup) (n : String) : ys.lookup n = xs.lookup n := by
  have hn' : (ys.map Prod.fst).Nodup := (hperm.map _).nodup_iff.mpr hn
  cases hx : xs.lookup n with
  | none =>
    rw [lookup_eq_none_iff_notMem] at hx ⊢
    exact fun hmem => hx ((hperm.map _).mem_iff.mp hmem)
  | some a =>
    obtain ⟨before, after, hsplit, -⟩ := List.lookup_eq_some_iff.mp hx
    exact lookup_of_mem hn' (hperm.mem_iff.mpr (by simp [hsplit]))

lemma Coherent.withTypes (henv : env.Coherent) (hn : (env.types.map Prod.fst).Nodup)
    {types : List (String × Ty)} (hperm : types.Perm env.types) :
    (env.withTypes types).Coherent := by
  have hlookup := lookup_of_perm hperm hn
  have hdeclared : DeclaredIn types = DeclaredIn env.types := by
    funext name fields
    rw [DeclaredIn, DeclaredIn, hlookup]
  refine ⟨?_, ?_, ?_, ?_, henv.method_eq⟩ <;> dsimp only <;> rw [hdeclared]
  · exact fun t ht => henv.types t (hperm.mem_iff.mp ht)
  · exact henv.vars
  · exact henv.params
  · exact henv.results

end Environment

namespace Check

open Environment (DeclaredIn)

/-- The records are those that occur in the declared types. -/
lemma mem_records_iff_occurs {env : Environment} (henv : env.Coherent) {r : RecordTy} :
    r ∈ records env.types ↔ ∃ t ∈ env.types, Ty.Occurs (.record r.name r.fields) t.2 := by
  constructor
  · intro hr
    let R name fields := ∃ t ∈ env.types, Ty.Occurs (.record name fields) t.2
    have htypes : ∀ t ∈ env.types, t.2.EachRecord R := fun t ht =>
      Ty.eachRecord_iff_occurs.mpr fun _ _ hoccurs => ⟨t, ht, hoccurs⟩
    exact (collect_spec htypes .nil).1.each r hr
  · rintro ⟨t, ht, hoccurs⟩
    exact mem_records henv (Ty.eachRecord_iff_occurs.mp (henv.types t ht) _ _ hoccurs)

lemma records_of_perm {env : Environment} (henv : env.Coherent)
    (hn : (env.types.map Prod.fst).Nodup) {types : List (String × Ty)}
    (hperm : types.Perm env.types) : records types = records env.types := by
  refine (records_ascending types).eq_of_mem_iff (records_ascending env.types) fun r => ?_
  rw [mem_records_iff_occurs henv]
  refine (mem_records_iff_occurs (henv.withTypes hn hperm)).trans (exists_congr fun t => ?_)
  rw [hperm.mem_iff]

section Lookup

variable {types : List (String × Ty)}

/-- The same scope, with the declared types in another order. -/
def Scope.withTypes (s : Scope) (types : List (String × Ty)) : Scope :=
  { s with env := s.env.withTypes types }

mutual

/-- No expression reads the table of types. -/
theorem expr_withTypes (s : Scope) (expected : Option Ty) (e : Source.Expr) :
    expr (s.withTypes types) expected e = expr s expected e := by
  match e with
  | .int _ | .real _ | .bool _ | .char _ | .text _ => rw [expr, expr]
  | .name n =>
    rw [expr, expr]
    rfl
  | .call f [x] =>
    have hargs (params : List Passing) := arguments_withTypes s f 1 params [x]
    simp only [expr, expr_withTypes s none x, hargs]
    rfl
  | .call f [] =>
    have hargs (params : List Passing) := arguments_withTypes s f 1 params []
    simp only [expr, hargs]
    rfl
  | .call f (x :: y :: args) =>
    have hargs (params : List Passing) := arguments_withTypes s f 1 params (x :: y :: args)
    simp only [expr, hargs]
    rfl
  | .field e f => rw [expr, expr, place_withTypes s e]
  | .index e i =>
    have hi := expr_withTypes s none i
    simp only [expr, place_withTypes s e, hi]
  | .unary op x => rw [expr, expr, expr_withTypes s none x]
  | .binary op a b =>
    have ha (expected : Option Ty) := expr_withTypes s expected a
    have hb (expected : Option Ty) := expr_withTypes s expected b
    simp only [expr, ha, hb]

theorem place_withTypes (s : Scope) (e : Source.Expr) :
    place (s.withTypes types) e = place s e := by
  match e with
  | .name n => rw [place, place]; rfl
  | .field e f => rw [place, place, place_withTypes s e]
  | .index e i => simp only [place, place_withTypes s e, expr_withTypes s none i]
  | .int _ | .real _ | .bool _ | .char _ | .text _ | .call _ _ | .unary _ _ | .binary _ _ _ =>
    rw [place, place] <;> nofun

theorem arguments_withTypes (s : Scope) (routine : String) (number : Nat) (params : List Passing)
    (args : List Source.Expr) :
    arguments (s.withTypes types) routine number params args =
      arguments s routine number params args := by
  match params, args with
  | p :: params, a :: args =>
    rw [arguments, arguments, place_withTypes s a, expr_withTypes s (some p.ty) a,
      arguments_withTypes s routine (number + 1) params args]
    rfl
  | [], _ | _ :: _, [] => rw [arguments, arguments] <;> nofun

end

lemma positions_withTypes (s : Scope) (d : Designator) (is : List Source.Expr) :
    positions (s.withTypes types) d is = positions s d is := by
  induction is generalizing d with
  | nil => rfl
  | cons i rest ih => simp only [positions, expr_withTypes, ih]

lemma selectors_withTypes (s : Scope) (d : Designator) (sels : List Source.Selector) :
    selectors (s.withTypes types) d sels = selectors s d sels := by
  induction sels generalizing d with
  | nil => rfl
  | cons sel rest ih =>
    cases sel with
    | field f => simp only [selectors, ih]
    | index is => simp only [selectors, positions_withTypes, ih]

lemma access_withTypes (s : Scope) (a : Source.Access) :
    access (s.withTypes types) a = access s a := by
  simp only [access, selectors_withTypes]
  rfl

lemma writeArg_withTypes (s : Scope) (a : Source.WriteArg) :
    writeArg (s.withTypes types) a = writeArg s a := by
  unfold writeArg
  split
  · rfl
  · rw [expr_withTypes]

lemma readTarget_withTypes (s : Scope) (a : Source.Access) :
    readTarget (s.withTypes types) a = readTarget s a := by
  rw [readTarget, readTarget, access_withTypes]

lemma condition_withTypes (s : Scope) (spot : TypedSpot) (e : Source.Expr) :
    condition (s.withTypes types) spot e = condition s spot e := by
  rw [condition, condition, expr_withTypes]

mutual

/-- No statement reads the table of types. -/
theorem stmt_withTypes (s : Scope) (x : Source.Stmt) :
    stmt (s.withTypes types) x = stmt s x := by
  match x with
  | .compound body => rw [stmt, stmt, stmts_withTypes s body]
  | .assign target value =>
    simp only [stmt, checkAssign, access_withTypes, expr_withTypes]
  | .call routine args =>
    simp only [stmt, checkCall, arguments_withTypes]
    rfl
  | .ifThen cond yes no =>
    simp only [stmt, condition_withTypes, stmt_withTypes s yes, optional_withTypes s no]
  | .caseOf selector branches otherwise =>
    have harms (ty : Ty) := arms_withTypes s ty branches
    simp only [stmt, expr_withTypes, harms, optional_withTypes s otherwise]
  | .whileDo cond body => simp only [stmt, condition_withTypes, stmt_withTypes s body]
  | .repeatUntil body cond => simp only [stmt, condition_withTypes, stmts_withTypes s body]
  | .forDo counter first last down body =>
    simp only [stmt, bound, expr_withTypes, stmt_withTypes s body]
    rfl
  | .read line targets =>
    have htargets : readTarget (s.withTypes types) = readTarget s :=
      funext fun a => readTarget_withTypes s a
    rw [stmt, stmt, htargets]
  | .write line args =>
    have hargs : writeArg (s.withTypes types) = writeArg s := funext fun a => writeArg_withTypes s a
    rw [stmt, stmt, hargs]

theorem stmts_withTypes (s : Scope) (xs : List Source.Stmt) :
    stmts (s.withTypes types) xs = stmts s xs := by
  match xs with
  | [] => rw [stmts, stmts]
  | x :: rest => rw [stmts, stmts, stmt_withTypes s x, stmts_withTypes s rest]

theorem optional_withTypes (s : Scope) (x : Option Source.Stmt) :
    optional (s.withTypes types) x = optional s x := by
  match x with
  | none => rw [optional, optional]
  | some x => rw [optional, optional, stmt_withTypes s x]

theorem arms_withTypes (s : Scope) (selector : Ty)
    (branches : List (List Source.ConstExpr × Source.Stmt)) :
    arms (s.withTypes types) selector branches = arms s selector branches := by
  match branches with
  | [] => rw [arms, arms]
  | (values, x) :: rest =>
    rw [arms, arms, stmt_withTypes s x, arms_withTypes s selector rest]
    rfl

end

variable {env : Environment}

lemma declareParams_withTypes (routine : String) (f : Frame)
    (params : List (Source.Param × Passing)) :
    f.declareParams (env.withTypes types) routine params = f.declareParams env routine params := by
  induction params generalizing f with
  | nil => rfl
  | cons q rest ih =>
    simp only [Frame.declareParams, ih]
    rfl

lemma typeOf_withTypes (htypes : ∀ n, types.lookup n = env.types.lookup n) (ref : Source.TypeRef) :
    (env.withTypes types).typeOf ref = env.typeOf ref := by
  cases ref with
  | basic b => rfl
  | named n => rw [Environment.typeOf, Environment.typeOf, htypes]

lemma declareLocals_withTypes (htypes : ∀ n, types.lookup n = env.types.lookup n)
    (routine : String) (f : Frame) (vars : List (String × Source.TypeRef)) :
    f.declareLocals (env.withTypes types) routine vars = f.declareLocals env routine vars := by
  induction vars generalizing f with
  | nil => rfl
  | cons v rest ih =>
    simp only [Frame.declareLocals, typeOf_withTypes htypes, ih]
    rfl

lemma routine_withTypes (htypes : ∀ n, types.lookup n = env.types.lookup n) (path : ScopePath)
    (visible : List (String × ScopePath)) (h : Source.Heading)
    (vars : List (String × Source.TypeRef)) (body : Source.Stmt) :
    routine (env.withTypes types) path visible h vars body =
      routine env path visible h vars body := by
  have hbody (f : Frame) : stmt ⟨env.withTypes types, path, f.symbols, visible⟩ body =
      stmt ⟨env, path, f.symbols, visible⟩ body :=
    stmt_withTypes ⟨env, path, f.symbols, visible⟩ body
  simp only [routine, declareLocals_withTypes htypes, declareParams_withTypes, hbody]
  rfl

mutual

theorem nested_withTypes (htypes : ∀ n, types.lookup n = env.types.lookup n) (path : ScopePath)
    (outer : List (String × ScopePath)) (h : Source.Heading) (b : Source.Block) :
    nested (env.withTypes types) path outer h b = nested env path outer h b := by
  match b with
  | ⟨_, _, vars, inner, body⟩ =>
    rw [nested, nested, routine_withTypes htypes, routines_withTypes htypes path _ inner]

theorem routines_withTypes (htypes : ∀ n, types.lookup n = env.types.lookup n)
    (path : ScopePath) (visible : List (String × ScopePath))
    (rs : List (Source.Heading × Source.Block)) :
    routines (env.withTypes types) path visible rs = routines env path visible rs := by
  match rs with
  | [] => rw [routines, routines]
  | (h, b) :: rest =>
    rw [routines, routines, nested_withTypes htypes _ _ h b,
      routines_withTypes htypes path visible rest]

end

/-- Checking a program depends on the order of the types only where the records are collected. -/
theorem program_withTypes (htypes : ∀ n, types.lookup n = env.types.lookup n)
    (hrecords : records types = records env.types) (p : Source.Program) :
    program (env.withTypes types) p = program env p := by
  have hbody (visible : List (String × ScopePath)) :
      stmt ⟨env.withTypes types, [], [], visible⟩ p.block.body =
        stmt ⟨env, [], [], visible⟩ p.block.body :=
    stmt_withTypes ⟨env, [], [], visible⟩ p.block.body
  simp only [program, routines_withTypes htypes, hbody, hrecords]

end Lookup

end Check

namespace Environment

open Check (records)
open Source (TypeRef TypeSpec)

variable {path : ScopePath} {env env' : Environment}

/-- The fields have the names of a declaration, in its order, and the types that it refers to. -/
def FieldTable (env : Environment) (refs : List (String × TypeRef)) (fields : List (String × Ty)) :
    Prop :=
  List.Forall₂ (fun ref f => f.1 = ref.1 ∧ env.typeOf ref.2 = .ok f.2) refs fields

lemma FieldTable.mono (hkept : env.KeptIn env') {refs : List (String × TypeRef)}
    {fields : List (String × Ty)} (h : env.FieldTable refs fields) : env'.FieldTable refs fields :=
  h.imp fun _ _ hf => ⟨hf.1, typeOf_mono (fun _ _ _ ht => hkept.types ht) hf.2⟩

lemma FieldTable.unique {refs : List (String × TypeRef)} {fields fields' : List (String × Ty)}
    (h : env.FieldTable refs fields) (h' : env.FieldTable refs fields') : fields = fields' := by
  induction h generalizing fields' with
  | nil =>
    cases h'
    rfl
  | cons hf _ ih =>
    obtain _ | ⟨hf', hrest⟩ := h'
    rw [ih hrest, Prod.ext (hf.1.trans hf'.1.symm) (Except.ok.inj (hf.2.symm.trans hf'.2))]

lemma fieldTable_of_fieldsOf {refs : List (String × TypeRef)} {done fields : List (String × Ty)}
    (h : fieldsOf path env done refs = .ok fields) :
    ∃ added, fields = done ++ added ∧ env.FieldTable refs added := by
  induction refs generalizing done with
  | nil =>
    cases h
    exact ⟨[], (List.append_nil _).symm, .nil⟩
  | cons ref rest ih =>
    obtain ⟨name, ref⟩ := ref
    simp only [fieldsOf, bind_eq_ok] at h
    obtain ⟨t, ht, h⟩ := h
    obtain ⟨-, h⟩ := ok_of_guard h
    obtain ⟨added, rfl, hadded⟩ := ih h
    exact ⟨(name, t) :: added, by simp, .cons ⟨rfl, ht⟩ hadded⟩

/-- A record that is declared under its own name is declared as a record: another name for a type
would need that type to be there before. -/
lemma specify_record (henv : env.Coherent) {name : String} {spec : TypeSpec}
    {fields : List (String × Ty)} (hfresh : name ∉ env.types.map Prod.fst)
    (h : specify path env name spec = .ok (env', .record name fields)) :
    ∃ refs, spec = .record refs ∧ env.FieldTable refs fields := by
  have hnot (ref : TypeRef) : env.typeOf ref ≠ .ok (.record name fields) := by
    intro href
    have hdeclared : DeclaredIn env.types name fields := (henv.typeOf href).1
    rw [DeclaredIn, lookup_eq_none_iff_notMem.mpr hfresh] at hdeclared
    cases hdeclared
  cases spec with
  | basic b => cases h
  | enum values =>
    simp only [specify, bind_eq_ok, pure_eq_ok, Prod.mk.injEq] at h
    obtain ⟨-, -, -, hty⟩ := h
    cases hty
  | record refs =>
    simp only [specify, bind_eq_ok, pure_eq_ok, Prod.mk.injEq, Ty.record.injEq] at h
    obtain ⟨fs, hfs, -, -, rfl⟩ := h
    obtain ⟨added, rfl, hadded⟩ := fieldTable_of_fieldsOf hfs
    exact ⟨refs, rfl, hadded⟩
  | array ranges elem =>
    simp only [specify, bind_eq_ok, pure_eq_ok, Prod.mk.injEq] at h
    obtain ⟨dims, -, t, ht, -, hty⟩ := h
    cases dims with
    | nil =>
      obtain rfl : t = .record name fields := hty
      exact absurd ht (hnot elem)
    | cons d dims => cases hty
  | «alias» n =>
    simp only [specify, bind_eq_ok, pure_eq_ok, Prod.mk.injEq] at h
    obtain ⟨t, ht, -, rfl⟩ := h
    exact absurd ht (hnot (.named n))

/-- Every record of the tables comes from a declaration among the steps. -/
def FromSteps (steps : List Step) (env : Environment) : Prop :=
  ∀ name fields, DeclaredIn env.types name fields →
    ∃ path refs, Step.declare path (.type name (.record refs)) ∈ steps ∧ env.FieldTable refs fields

lemma FromSteps.step {steps : List Step} (henv : env.Coherent) (h : FromSteps steps env) {s : Step}
    (hs : s ∈ steps) (hrun : s.run env = .ok env') : FromSteps steps env' := by
  intro name fields hdeclared
  have hkept := s.keptIn hrun
  by_cases hold : DeclaredIn env.types name fields
  · obtain ⟨path, refs, hmem, htable⟩ := h name fields hold
    exact ⟨path, refs, hmem, htable.mono hkept⟩
  match s with
  | .declare path (.type n spec) =>
    obtain ⟨hfresh, mid, ty, hspec, rfl⟩ := declareType_ok hrun
    obtain ⟨-, -, htypes, -⟩ := specify_adds hspec
    rw [DeclaredIn, addType, htypes, List.lookup_append] at hdeclared
    -- the new entry is the one that is found
    have hnone : env.types.lookup name = none := by
      cases hlookup : env.types.lookup name with
      | none => rfl
      | some t =>
        rw [hlookup, Option.some_or] at hdeclared
        exact absurd (hlookup.trans hdeclared) hold
    rw [hnone, Option.none_or, List.lookup_cons] at hdeclared
    split at hdeclared
    next hname =>
      obtain rfl := eq_of_beq hname
      obtain rfl := Option.some.inj hdeclared
      obtain ⟨refs, rfl, htable⟩ := specify_record henv hfresh hspec
      exact ⟨path, refs, hs, htable.mono hkept⟩
    next => cases hdeclared
  | .declare path (.const n e) =>
    obtain ⟨-, c, -, rfl⟩ := declareConst_ok hrun
    exact absurd hdeclared hold
  | .var path n ref =>
    obtain ⟨-, hrun⟩ := ok_of_guard hrun
    simp only [bind_eq_ok, pure_eq_ok] at hrun
    obtain ⟨t, -, rfl⟩ := hrun
    exact absurd hdeclared hold
  | .heading path seen (first, b) =>
    obtain ⟨-, hrun⟩ := ok_of_guard hrun
    simp only [bind_eq_ok] at hrun
    obtain ⟨params, -, result, -, hrun⟩ := hrun
    cases hrun
    exact absurd hdeclared hold

/-- The records are those of the type declarations, each with the fields that are declared. -/
lemma mem_records_iff_declared {p : Source.Program} (h : ofProgram p = .ok env) {r : RecordTy} :
    r ∈ records env.types ↔ ∃ b ∈ p.block.blocks, ∃ refs,
      (r.name, .record refs) ∈ b.types ∧ env.FieldTable refs r.fields := by
  have henv := coherent_of_ofProgram h
  rw [ofProgram, declareBlock_eq_steps] at h
  constructor
  · intro hr
    have hdeclared := (Check.collect_spec henv.types .nil).1.each r hr
    have hfrom : env.Coherent ∧ FromSteps (blockSteps [] p.block) env := by
      refine of_steps (P := fun env => env.Coherent ∧ FromSteps (blockSteps [] p.block) env)
        (fun s hs env env' hold hrun => ?_) ⟨.empty, fun _ _ hnone => by cases hnone⟩ h
      exact ⟨Step.coherent hold.1 hrun, hold.2.step hold.1 hs hrun⟩
    obtain ⟨path, refs, hmem, htable⟩ := hfrom.2 r.name r.fields hdeclared
    obtain ⟨b, hb, q, hown⟩ := mem_ownSteps_of_blockSteps [] p.block hmem
    obtain ⟨-, ⟨x, -, hx⟩ | ⟨x, hx, hdecl⟩⟩ := declare_mem_ownSteps.mp hown
    · cases hx
    · obtain ⟨hname, hspec⟩ := Source.Declaration.type.inj hdecl
      refine ⟨b, hb, refs, ?_, htable⟩
      rw [hname, hspec]
      exact hx
  · rintro ⟨b, hb, refs, hmem, htable⟩
    obtain ⟨path, hown⟩ := ownSteps_subset_blockSteps [] p.block b hb
    have hstep := hown (declare_mem_ownSteps.mpr ⟨rfl, .inr ⟨_, hmem, rfl⟩⟩)
    obtain ⟨cur, next, hrun, hcur, hnext⟩ := (steps_taken h).2 _ hstep
    obtain ⟨hfresh, mid, ty, hspec, rfl⟩ := declareType_ok hrun
    obtain ⟨-, -, htypes, -⟩ := specify_adds hspec
    simp only [specify, bind_eq_ok, pure_eq_ok, Prod.mk.injEq] at hspec
    obtain ⟨fields, hfields, rfl, rfl⟩ := hspec
    obtain ⟨added, rfl, hadded⟩ := fieldTable_of_fieldsOf hfields
    obtain rfl := (hadded.mono hcur).unique htable
    refine Check.mem_records henv (hnext.types ?_)
    rw [addType, lookup_append_of_notMem hfresh, List.lookup_cons_self]

end Environment

/-- Checking a program gives the same result for every order of its table of types. The records are
sorted by name, no name twice, and they are the records that occur in the declared types, at any
depth. Each of them has a declaration of its own with these fields. -/
theorem records_settled_by_declarations {p : Source.Program} {env : Environment} {q : Typed.Program}
    (henv : Environment.ofProgram p = .ok env) (hcheck : (Check.program env p).outcome = .ok q) :
    (∀ types, types.Perm env.types →
      Check.program (env.withTypes types) p = Check.program env p) ∧
    q.records.Pairwise (fun r x => r.name < x.name) ∧
    (∀ r, r ∈ q.records ↔ ∃ t ∈ env.types, Ty.Occurs (.record r.name r.fields) t.2) ∧
    ∀ r, r ∈ q.records ↔ ∃ b ∈ p.block.blocks, ∃ refs,
      (r.name, .record refs) ∈ b.types ∧ env.FieldTable refs r.fields := by
  have hcoherent := Environment.coherent_of_ofProgram henv
  have hnodup := Environment.nodup_types henv
  have hrecords : q.records = Check.records env.types := by
    simp only [Check.program, Traced.bind_ok, Traced.outcome_pure, Except.ok.injEq] at hcheck
    obtain ⟨checked, -, body, -, rfl⟩ := hcheck
    rfl
  rw [hrecords]
  refine ⟨fun types hperm => ?_, Check.records_ascending env.types,
    fun r => Check.mem_records_iff_occurs hcoherent,
    fun r => Environment.mem_records_iff_declared henv⟩
  exact Check.program_withTypes (Environment.lookup_of_perm hperm hnodup)
    (Check.records_of_perm hcoherent hnodup hperm) p

/-- A record in an array in a record, which has two names. -/
def boxSource : List Char :=
  ("program p; type pair = record a: integer; b: real end; row = array[3] of pair; " ++
    "box = record rows: row; last: pair end; other = box; begin end.").toList

theorem boxSource_records_settled : ∃ p env q, Source.Program.parse boxSource = .ok p ∧
    Environment.ofProgram p = .ok env ∧ (Check.program env p).outcome = .ok q ∧
    q.records.map RecordTy.name = ["box", "pair"] ∧
    (Check.program (env.withTypes env.types.reverse) p).outcome = .ok q ∧
    ∀ r ∈ q.records, ∃ b ∈ p.block.blocks, ∃ refs,
      (r.name, .record refs) ∈ b.types ∧ env.FieldTable refs r.fields := by
  have hnames : ((Source.Program.parse boxSource).toOption.bind fun p =>
      (Environment.ofProgram p).toOption.bind fun env =>
        (Check.program env p).outcome.toOption.map fun q => q.records.map RecordTy.name) =
      some ["box", "pair"] := by decide +kernel
  obtain ⟨p, hparse, hnames⟩ := Option.bind_eq_some_iff.mp hnames
  obtain ⟨env, henv, hnames⟩ := Option.bind_eq_some_iff.mp hnames
  obtain ⟨q, hcheck, hnames⟩ := Option.map_eq_some_iff.mp hnames
  rw [toOption_eq_some] at hparse henv hcheck
  obtain ⟨horder, -, -, hdeclared⟩ := records_settled_by_declarations henv hcheck
  have hreversed := horder env.types.reverse env.types.reverse_perm
  exact ⟨p, env, q, hparse, henv, hcheck, hnames, by rw [hreversed, hcheck],
    fun r hr => (hdeclared r).mp hr⟩

end PascalJvm
