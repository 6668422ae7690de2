import Mathlib.Tactic
import PascalJvm.Check.Environment
import PascalJvm.Proofs.Outcome
import PascalJvm.Proofs.WellTyped

/-!
# Declarations

What the environment of a program has in it: every declared type is valid, and the signature
that is filed under the path of a routine has the parameters of its heading.
-/
namespace PascalJvm

lemma Constant.toInt_of_fit {n : Int} {i : Int32} (h : Constant.fit? n = some i) : i.toInt = n := by
  unfold Constant.fit? at h
  split at h
  next hn =>
    cases h
    simp only [Bool.and_eq_true, decide_eq_true_eq] at hn
    exact Int32.toInt_ofInt_of_le hn.1 hn.2
  next => cases h

@[simp] theorem Constant.orError_eq_ok {α : Type} {e : CheckError} {x : Option α} {a : α} :
    Constant.orError e x = .ok a ↔ x = some a := by
  cases x <;> simp [Constant.orError]

lemma Ty.FieldsValid.append {xs ys : List (String × Ty)} (hx : Ty.FieldsValid xs)
    (hy : Ty.FieldsValid ys) : Ty.FieldsValid (xs ++ ys) := by
  induction xs with
  | nil => exact hy
  | cons x xs ih => exact ⟨hx.1, ih hx.2⟩

namespace Environment

/-- Every type that is declared, or that a variable or a parameter has, is valid. -/
structure Valid (env : Environment) : Prop where
  types : ∀ t ∈ env.types, t.2.Valid
  vars : ∀ v ∈ env.vars, v.2.Valid
  params : ∀ r ∈ env.routines, ∀ p ∈ r.2.params, p.ty.Valid
  results : ∀ r ∈ env.routines, ∀ t ∈ r.2.result, t.Valid

variable {path : ScopePath} {env env' : Environment}

lemma Valid.typeOf (h : env.Valid) {ref : Source.TypeRef} {t : Ty} (ht : env.typeOf ref = .ok t) :
    t.Valid := by
  cases ref with
  | basic b =>
    cases ht
    trivial
  | named n =>
    simp only [Environment.typeOf, Constant.orError_eq_ok, List.lookup_eq_some_iff] at ht
    obtain ⟨before, after, hsplit, -⟩ := ht
    exact h.types (n, t) (by simp [hsplit])

lemma dimension_bounds {r : Source.IndexRange} {low : Int32} {len : Nat}
    (h : dimension path env r = .ok (low, len)) : low.toInt + len ≤ 2 ^ 31 ∧ len < 2 ^ 31 := by
  obtain ⟨lowExpr, highExpr⟩ := r
  simp only [dimension, bind_eq_ok, Constant.orError_eq_ok] at h
  obtain ⟨high, -, h⟩ := h
  have hhigh := high.toInt_lt
  cases lowExpr with
  | none =>
    simp only [bind_eq_ok, pure_eq_ok] at h
    obtain ⟨-, rfl, h⟩ := h
    obtain ⟨hpos, h⟩ := ok_of_guard h
    simp only [pure_eq_ok, Prod.mk.injEq] at h
    obtain ⟨rfl, rfl⟩ := h
    simp only [Int32.toInt_zero]
    omega
  | some e =>
    simp only [bind_eq_ok, pure_eq_ok, Constant.orError_eq_ok, Option.bind_eq_some_iff] at h
    obtain ⟨first, -, count, ⟨span, hspan, hcount⟩, -, rfl, h⟩ := h
    obtain ⟨hpos, h⟩ := ok_of_guard h
    simp only [pure_eq_ok, Prod.mk.injEq] at h
    obtain ⟨rfl, rfl⟩ := h
    dsimp only at hpos
    have hspan' := Constant.toInt_of_fit hspan
    have hcount' := Constant.toInt_of_fit hcount
    have hlt := count.toInt_lt
    omega

lemma arrayOf_valid {dims : List (Int32 × Nat)} {elem : Ty} (helem : elem.Valid)
    (h : ∀ d ∈ dims, d.1.toInt + d.2 ≤ 2 ^ 31 ∧ d.2 < 2 ^ 31) : (arrayOf dims elem).Valid := by
  induction dims with
  | nil => exact helem
  | cons d dims ih =>
    obtain ⟨hlast, hlen⟩ := h d List.mem_cons_self
    exact ⟨hlast, hlen, ih fun x hx => h x (List.mem_cons_of_mem _ hx)⟩

lemma fieldsOf_valid (henv : env.Valid) {done fields : List (String × Ty)}
    {refs : List (String × Source.TypeRef)} (hdone : Ty.FieldsValid done)
    (h : fieldsOf path env done refs = .ok fields) : Ty.FieldsValid fields := by
  induction refs generalizing done with
  | nil =>
    cases h
    exact hdone
  | cons ref rest ih =>
    obtain ⟨name, ref⟩ := ref
    simp only [fieldsOf, bind_eq_ok] at h
    obtain ⟨t, ht, h⟩ := h
    obtain ⟨-, h⟩ := ok_of_guard h
    have hnext : Ty.FieldsValid (done ++ [(name, t)]) :=
      hdone.append ⟨henv.typeOf ht, trivial⟩
    exact ih hnext h

lemma declareConst_valid (henv : env.Valid) {decl : String × Source.ConstExpr}
    (h : declareConst path env decl = .ok env') :
    env'.Valid ∧ env'.routines = env.routines := by
  obtain ⟨-, h⟩ := ok_of_guard h
  simp only [bind_eq_ok, pure_eq_ok] at h
  obtain ⟨c, -, rfl⟩ := h
  exact ⟨⟨henv.types, henv.vars, henv.params, henv.results⟩, rfl⟩

lemma declareValues_valid (henv : env.Valid) {ty : String} {n : Nat} {values : List String}
    (h : declareValues path ty env n values = .ok env') :
    env'.Valid ∧ env'.routines = env.routines := by
  induction values generalizing env n with
  | nil =>
    cases h
    exact ⟨henv, rfl⟩
  | cons v vs ih =>
    simp only [declareValues] at h
    split at h
    next => cases h
    next =>
      have hnext : (env.addConst v (.enum (Int32.ofNat n) ty)).Valid :=
        ⟨henv.types, henv.vars, henv.params, henv.results⟩
      obtain ⟨hvalid, hroutines⟩ := ih hnext h
      exact ⟨hvalid, hroutines⟩

lemma specify_valid (henv : env.Valid) {name : String} {spec : Source.TypeSpec} {ty : Ty}
    (h : specify path env name spec = .ok (env', ty)) :
    env'.Valid ∧ env'.routines = env.routines ∧ ty.Valid := by
  match spec with
  | .basic b =>
    cases h
    exact ⟨henv, rfl, trivial⟩
  | .enum values =>
    simp only [specify, bind_eq_ok, pure_eq_ok, Prod.mk.injEq] at h
    obtain ⟨env'', hvalues, rfl, rfl⟩ := h
    obtain ⟨hvalid, hroutines⟩ := declareValues_valid henv hvalues
    exact ⟨hvalid, hroutines, trivial⟩
  | .record fields =>
    simp only [specify, bind_eq_ok, pure_eq_ok, Prod.mk.injEq] at h
    obtain ⟨fs, hfs, rfl, rfl⟩ := h
    have hnone : Ty.FieldsValid [] := trivial
    exact ⟨henv, rfl, fieldsOf_valid henv hnone hfs⟩
  | .array ranges elem =>
    simp only [specify, bind_eq_ok, pure_eq_ok, Prod.mk.injEq] at h
    obtain ⟨dims, hdims, t, ht, rfl, rfl⟩ := h
    refine ⟨henv, rfl, arrayOf_valid (henv.typeOf ht) ?_⟩
    exact forall_of_mapM_eq_ok (fun _ _ hd => dimension_bounds hd) hdims
  | .alias n =>
    simp only [specify, bind_eq_ok, pure_eq_ok, Prod.mk.injEq] at h
    obtain ⟨t, ht, rfl, rfl⟩ := h
    exact ⟨henv, rfl, henv.typeOf ht⟩

lemma declareType_valid (henv : env.Valid) {decl : String × Source.TypeSpec}
    (h : declareType path env decl = .ok env') :
    env'.Valid ∧ env'.routines = env.routines := by
  obtain ⟨-, h⟩ := ok_of_guard h
  simp only [bind_eq_ok, pure_eq_ok] at h
  obtain ⟨⟨env'', ty⟩, hspec, rfl⟩ := h
  obtain ⟨henv', hroutines, hty⟩ := specify_valid henv hspec
  refine ⟨⟨?_, henv'.vars, henv'.params, henv'.results⟩, hroutines⟩
  intro t ht
  rcases List.mem_append.mp ht with ht | ht
  · exact henv'.types t ht
  · rw [List.mem_singleton.mp ht]
    exact hty

lemma declareVar_valid (henv : env.Valid) {decl : String × Source.TypeRef}
    (h : declareVar path env decl = .ok env') :
    env'.Valid ∧ env'.routines = env.routines := by
  obtain ⟨-, h⟩ := ok_of_guard h
  simp only [bind_eq_ok, pure_eq_ok] at h
  obtain ⟨t, ht, rfl⟩ := h
  refine ⟨⟨henv.types, ?_, henv.params, henv.results⟩, rfl⟩
  intro v hv
  rcases List.mem_append.mp hv with hv | hv
  · exact henv.vars v hv
  · rw [List.mem_singleton.mp hv]
    exact henv.typeOf ht

/-- Declarations that bring no routine, one after the other. -/
lemma valid_of_foldlM {β : Type} {f : Environment → β → Except CheckError Environment}
    (hf : ∀ a x b, Valid a → f a x = .ok b → b.Valid ∧ b.routines = a.routines) {xs : List β}
    (henv : env.Valid) (h : xs.foldlM f env = .ok env') :
    env'.Valid ∧ env'.routines = env.routines := by
  induction xs generalizing env with
  | nil =>
    simp only [List.foldlM_nil, pure_eq_ok] at h
    exact h ▸ ⟨henv, rfl⟩
  | cons x xs ih =>
    simp only [List.foldlM_cons, bind_eq_ok] at h
    obtain ⟨next, hnext, h⟩ := h
    obtain ⟨hvalid, hroutines⟩ := hf env x next henv hnext
    obtain ⟨hvalid', hroutines'⟩ := ih hvalid h
    exact ⟨hvalid', hroutines'.trans hroutines⟩

lemma passing_valid (henv : env.Valid) {routine : String} {p : Source.Param} {q : Passing}
    (h : passing env routine p = .ok q) : q.ty.Valid := by
  simp only [passing, bind_eq_ok] at h
  obtain ⟨t, ht, h⟩ := h
  obtain ⟨-, h⟩ := ok_of_guard h
  rw [← pure_eq_ok.mp h]
  exact henv.typeOf ht

lemma resultOf_valid (henv : env.Valid) {heading : Source.Heading} {r : Option Ty}
    (h : resultOf env heading = .ok r) : ∀ t ∈ r, t.Valid := by
  unfold resultOf at h
  split at h
  next =>
    cases h
    simp
  next ref _ =>
    simp only [bind_eq_ok] at h
    obtain ⟨t, ht, h⟩ := h
    obtain ⟨-, h⟩ := ok_of_guard h
    rw [← pure_eq_ok.mp h]
    simpa using henv.typeOf ht

/-- The signature under the path of a routine has the parameters of its heading. -/
def Filed (env : Environment) (own : ScopePath) (h : Source.Heading) : Prop :=
  ∃ sig, env.routines.lookup own = some sig ∧ sig.params.length = h.params.length

mutual

/-- All routines of a block are filed, those inside them as well. -/
def BlockFiled (env : Environment) (path : ScopePath) : Source.Block → Prop
  | ⟨_, _, _, routines, _⟩ => RoutinesFiled env path routines

def RoutinesFiled (env : Environment) (path : ScopePath) :
    List (Source.Heading × Source.Block) → Prop
  | [] => True
  | (h, b) :: rest =>
      Filed env (path ++ [h.name]) h ∧ BlockFiled env (path ++ [h.name]) b ∧
        RoutinesFiled env path rest

end

/-- The routines of `env'` are those of `env`, with more after them. -/
def Extends (env env' : Environment) : Prop := ∃ more, env'.routines = env.routines ++ more

lemma Filed.extends {own : ScopePath} {heading : Source.Heading} (h : Filed env own heading)
    (he : env.Extends env') : Filed env' own heading := by
  obtain ⟨sig, hsig, hlen⟩ := h
  obtain ⟨more, hmore⟩ := he
  exact ⟨sig, by rw [hmore, List.lookup_append, hsig, Option.some_or], hlen⟩

mutual

theorem BlockFiled.extends (he : env.Extends env') (path : ScopePath) (b : Source.Block)
    (h : BlockFiled env path b) : BlockFiled env' path b := by
  match b with
  | ⟨_, _, _, routines, _⟩ => exact RoutinesFiled.extends he path routines h

theorem RoutinesFiled.extends (he : env.Extends env') (path : ScopePath)
    (rs : List (Source.Heading × Source.Block)) (h : RoutinesFiled env path rs) :
    RoutinesFiled env' path rs := by
  match rs with
  | [] => trivial
  | (heading, b) :: rest =>
    exact ⟨h.1.extends he, BlockFiled.extends he (path ++ [heading.name]) b h.2.1,
      RoutinesFiled.extends he path rest h.2.2⟩

end

/-- No routine is filed under a path below `path`. -/
def Unfiled (env : Environment) (path : ScopePath) : Prop :=
  ∀ r ∈ env.routines, ∀ name, ¬(path ++ [name]) <+: r.1

lemma lookup_eq_none_of_forall {own : ScopePath} (h : ∀ r ∈ env.routines, r.1 ≠ own) :
    env.routines.lookup own = none := by
  rw [List.lookup_eq_none_iff]
  intro r hr
  simpa using fun he => h r hr he.symm

/-- The first heading is filed before the others. -/
lemma declareHeadings_cons {seen : List String} {heading : Source.Heading} {block : Source.Block}
    {rest : List (Source.Heading × Source.Block)} (hvalid : env.Valid)
    (h : declareHeadings path env seen ((heading, block) :: rest) = .ok env') :
    heading.name ∉ seen ∧ ∃ (next : Environment) (sig : Signature), next.Valid ∧
      next.routines = env.routines ++ [(path ++ [heading.name], sig)] ∧
      sig.params.length = heading.params.length ∧
      declareHeadings path next (heading.name :: seen) rest = .ok env' := by
  obtain ⟨hseen, h⟩ := ok_of_guard h
  simp only [bind_eq_ok] at h
  obtain ⟨params, hparams, result, hresult, h⟩ := h
  refine ⟨by simpa using hseen, _, _, ?_, rfl, length_of_mapM_eq_ok hparams, h⟩
  refine ⟨hvalid.types, hvalid.vars, ?_, ?_⟩
  · intro r hr
    rcases List.mem_append.mp hr with hr | hr
    · exact hvalid.params r hr
    · rw [List.mem_singleton.mp hr]
      exact forall_of_mapM_eq_ok (fun _ _ hp => passing_valid hvalid hp) hparams
  · intro r hr
    rcases List.mem_append.mp hr with hr | hr
    · exact hvalid.results r hr
    · rw [List.mem_singleton.mp hr]
      exact resultOf_valid hvalid hresult

/-- What the headings of a block leave in the environment. -/
lemma declareHeadings_spec {seen : List String} {rs : List (Source.Heading × Source.Block)}
    (hvalid : env.Valid) (h : declareHeadings path env seen rs = .ok env') :
    env'.Valid ∧ (∀ r ∈ rs, r.1.name ∉ seen) ∧ (rs.map fun r => r.1.name).Nodup ∧
      ∃ more, env'.routines = env.routines ++ more ∧ ∀ r ∈ more, ∃ name, r.1 = path ++ [name] := by
  induction rs generalizing env seen with
  | nil =>
    cases h
    exact ⟨hvalid, by simp, by simp, [], by simp⟩
  | cons r rest ih =>
    obtain ⟨heading, block⟩ := r
    obtain ⟨hseen, next, sig, hnext, hroutines, -, h⟩ := declareHeadings_cons hvalid h
    obtain ⟨hvalid', hfresh, hnodup, more, hmore, hpaths⟩ := ih hnext h
    refine ⟨hvalid', ?_, ?_, (path ++ [heading.name], sig) :: more, ?_, ?_⟩
    · intro r hr
      rcases List.mem_cons.mp hr with rfl | hr
      · exact hseen
      · exact fun hmem => hfresh r hr (List.mem_cons_of_mem _ hmem)
    · rw [List.map_cons, List.nodup_cons]
      refine ⟨?_, hnodup⟩
      intro hmem
      obtain ⟨r, hr, hname⟩ := List.mem_map.mp hmem
      exact hfresh r hr (by simp [hname])
    · rw [hmore, hroutines, List.append_assoc, List.singleton_append]
    · intro r hr
      rcases List.mem_cons.mp hr with rfl | hr
      · exact ⟨heading.name, rfl⟩
      · exact hpaths r hr

lemma declareHeadings_filed {seen : List String} {rs : List (Source.Heading × Source.Block)}
    (hvalid : env.Valid) (hfree : ∀ r ∈ env.routines, ∀ q ∈ rs, r.1 ≠ path ++ [q.1.name])
    (h : declareHeadings path env seen rs = .ok env') :
    ∀ r ∈ rs, Filed env' (path ++ [r.1.name]) r.1 := by
  induction rs generalizing env seen with
  | nil => simp
  | cons r rest ih =>
    obtain ⟨-, -, hnodup, -⟩ := declareHeadings_spec hvalid h
    obtain ⟨heading, block⟩ := r
    obtain ⟨-, next, sig, hnext, hroutines, hlen, h⟩ := declareHeadings_cons hvalid h
    obtain ⟨-, -, -, more, hmore, -⟩ := declareHeadings_spec hnext h
    intro r hr
    rcases List.mem_cons.mp hr with rfl | hr
    · have hnone := lookup_eq_none_of_forall fun q hq => hfree q hq _ List.mem_cons_self
      have hfiled : Filed next (path ++ [heading.name]) heading :=
        ⟨sig, by rw [hroutines, List.lookup_append, hnone]; simp, hlen⟩
      exact hfiled.extends ⟨more, hmore⟩
    · refine ih hnext ?_ h r hr
      intro q hq p hp
      rw [hroutines] at hq
      rcases List.mem_append.mp hq with hq | hq
      · exact hfree q hq p (List.mem_cons_of_mem _ hp)
      · rw [List.mem_singleton.mp hq]
        intro he
        have hname : heading.name = p.1.name := by simpa using he
        rw [List.map_cons, List.nodup_cons] at hnodup
        exact hnodup.1 (List.mem_map.mpr ⟨p, hp, hname.symm⟩)

lemma Unfiled.ne {own : ScopePath} (h : Unfiled env path) {r : ScopePath × Signature}
    (hr : r ∈ env.routines) {name : String} (hown : own = path ++ [name]) : r.1 ≠ own := by
  rintro rfl
  exact h r hr name (hown ▸ List.prefix_rfl)

lemma declareOwn_spec {b : Source.Block} (hvalid : env.Valid) (hopen : Unfiled env path)
    (h : declareOwn path env b = .ok env') :
    env'.Valid ∧ (b.routines.map fun r => r.1.name).Nodup ∧
      (∀ r ∈ b.routines, Filed env' (path ++ [r.1.name]) r.1) ∧
      ∃ more, env'.routines = env.routines ++ more ∧ ∀ r ∈ more, ∃ name, r.1 = path ++ [name] := by
  simp only [declareOwn, bind_eq_ok] at h
  obtain ⟨env₁, h₁, env₂, h₂, h⟩ := h
  obtain ⟨hv₁, hr₁⟩ := valid_of_foldlM (fun _ _ _ hv h => declareConst_valid hv h) hvalid h₁
  obtain ⟨hv₂, hr₂⟩ := valid_of_foldlM (fun _ _ _ hv h => declareType_valid hv h) hv₁ h₂
  obtain ⟨env₃, hv₃, hr₃, h⟩ : ∃ env₃ : Environment, env₃.Valid ∧ env₃.routines = env₂.routines ∧
      declareHeadings path env₃ [] b.routines = .ok env' := by
    split at h
    next =>
      simp only [bind_eq_ok] at h
      obtain ⟨env₃, h₃, h⟩ := h
      obtain ⟨hv₃, hr₃⟩ := valid_of_foldlM (fun _ _ _ hv h => declareVar_valid hv h) hv₂ h₃
      exact ⟨env₃, hv₃, hr₃, h⟩
    next =>
      simp only [bind_eq_ok, pure_eq_ok] at h
      obtain ⟨env₃, rfl, h⟩ := h
      exact ⟨env₂, hv₂, rfl, h⟩
  have hsame : env₃.routines = env.routines := by rw [hr₃, hr₂, hr₁]
  obtain ⟨hvalid', -, hnodup, more, hmore, hpaths⟩ := declareHeadings_spec hv₃ h
  refine ⟨hvalid', hnodup, declareHeadings_filed hv₃ ?_ h, more, hsame ▸ hmore, hpaths⟩
  intro r hr q _
  exact hopen.ne (hsame ▸ hr) rfl

/-- Two different names lead to different parts of the tree of routines. -/
lemma not_below {a b : String} (hne : a ≠ b) {q : ScopePath} (h : (path ++ [a]) <+: q) :
    ¬(path ++ [b]) <+: q := by
  intro h'
  have heq := (List.prefix_of_prefix_length_le h h' (by simp)).eq_of_length (by simp)
  exact hne (by simpa using heq)

lemma Unfiled.below (h : Unfiled env path) (name : String) : Unfiled env (path ++ [name]) := by
  intro r hr x hx
  exact h r hr name ((List.prefix_append _ _).trans hx)

mutual

/-- What a block leaves in the environment: only paths below its own are added, and all of its
routines are filed. -/
theorem declareBlock_spec (path : ScopePath) (env : Environment) (b : Source.Block)
    {env' : Environment} (hvalid : env.Valid) (hopen : Unfiled env path)
    (h : declareBlock path env b = .ok env') :
    env'.Valid ∧ BlockFiled env' path b ∧
      ∃ more, env'.routines = env.routines ++ more ∧
        ∀ r ∈ more, ∃ name, (path ++ [name]) <+: r.1 := by
  match b with
  | ⟨consts, types, vars, routines, body⟩ =>
    simp only [declareBlock, bind_eq_ok] at h
    obtain ⟨next, hnext, h⟩ := h
    obtain ⟨hnextValid, hnodup, hfiled, own, hown, hpaths⟩ := declareOwn_spec hvalid hopen hnext
    have hbelow : ∀ r ∈ routines, Unfiled next (path ++ [r.1.name]) := by
      intro r _ q hq x hx
      rw [hown] at hq
      rcases List.mem_append.mp hq with hq | hq
      · exact hopen.below r.1.name q hq x hx
      · -- a heading of this block is no deeper than the routine itself
        obtain ⟨name, hname⟩ := hpaths q hq
        have hlen := hx.length_le
        rw [hname] at hlen
        simp at hlen
    obtain ⟨hvalid', hrest, more, hmore, hunder⟩ :=
      declareNested_spec path next routines hnextValid hnodup hbelow hfiled h
    refine ⟨hvalid', hrest, own ++ more, by rw [hmore, hown, List.append_assoc], ?_⟩
    intro r hr
    rcases List.mem_append.mp hr with hr | hr
    · obtain ⟨name, hname⟩ := hpaths r hr
      exact ⟨name, hname ▸ List.prefix_rfl⟩
    · obtain ⟨q, -, hq⟩ := hunder r hr
      exact ⟨q.1.name, hq⟩

theorem declareNested_spec (path : ScopePath) (env : Environment)
    (rs : List (Source.Heading × Source.Block)) {env' : Environment} (hvalid : env.Valid)
    (hnodup : (rs.map fun r => r.1.name).Nodup)
    (hopen : ∀ r ∈ rs, Unfiled env (path ++ [r.1.name]))
    (hfiled : ∀ r ∈ rs, Filed env (path ++ [r.1.name]) r.1)
    (h : declareNested path env rs = .ok env') :
    env'.Valid ∧ RoutinesFiled env' path rs ∧
      ∃ more, env'.routines = env.routines ++ more ∧
        ∀ r ∈ more, ∃ q ∈ rs, (path ++ [q.1.name]) <+: r.1 := by
  match rs with
  | [] =>
    cases h
    exact ⟨hvalid, trivial, [], by simp⟩
  | (heading, b) :: rest =>
    simp only [declareNested, bind_eq_ok] at h
    obtain ⟨next, hnext, h⟩ := h
    rw [List.map_cons, List.nodup_cons] at hnodup
    obtain ⟨hnextValid, hblock, own, hown, hpaths⟩ := declareBlock_spec (path ++ [heading.name]) env
      b hvalid (hopen _ List.mem_cons_self) hnext
    have hbelow : ∀ r ∈ rest, Unfiled next (path ++ [r.1.name]) := by
      intro r hr q hq x hx
      rw [hown] at hq
      rcases List.mem_append.mp hq with hq | hq
      · exact hopen r (List.mem_cons_of_mem _ hr) q hq x hx
      · -- what the first routine filed is below its own name
        obtain ⟨name, hname⟩ := hpaths q hq
        have hne : heading.name ≠ r.1.name :=
          fun he => hnodup.1 (List.mem_map.mpr ⟨r, hr, he.symm⟩)
        exact not_below hne ((List.prefix_append _ _).trans hname)
          ((List.prefix_append _ _).trans hx)
    obtain ⟨hvalid', hrest, more, hmore, hunder⟩ := declareNested_spec path next rest hnextValid
      hnodup.2 hbelow
      (fun r hr => (hfiled r (List.mem_cons_of_mem _ hr)).extends ⟨own, hown⟩) h
    have hext : next.Extends env' := ⟨more, hmore⟩
    refine ⟨hvalid', ⟨?_, BlockFiled.extends hext _ _ hblock, hrest⟩, own ++ more,
      by rw [hmore, hown, List.append_assoc], ?_⟩
    · exact ((hfiled _ List.mem_cons_self).extends ⟨own, hown⟩).extends hext
    · intro r hr
      rcases List.mem_append.mp hr with hr | hr
      · obtain ⟨name, hname⟩ := hpaths r hr
        exact ⟨(heading, b), List.mem_cons_self, (List.prefix_append _ _).trans hname⟩
      · obtain ⟨q, hq, hpre⟩ := hunder r hr
        exact ⟨q, List.mem_cons_of_mem _ hq, hpre⟩

end

/-- The environment of a program is valid and has all of its routines. -/
theorem ofProgram_spec {p : Source.Program} (h : ofProgram p = .ok env) :
    env.Valid ∧ BlockFiled env [] p.block := by
  have hempty : Environment.empty.Valid := by
    constructor <;> simp [Environment.empty]
  have hopen : Unfiled Environment.empty [] := by simp [Unfiled, Environment.empty]
  obtain ⟨hvalid, hfiled, -⟩ := declareBlock_spec [] .empty p.block hempty hopen h
  exact ⟨hvalid, hfiled⟩

end Environment
end PascalJvm
