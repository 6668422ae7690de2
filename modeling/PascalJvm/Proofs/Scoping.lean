import Mathlib.Tactic
import PascalJvm.Proofs.DeclarationSteps

/-!
# Scoping

What a declaration may name, by the rule of lexical scope: the constants and types that are
declared earlier in the text, in the same block or in a block around it. The tables of an
environment are for the whole program, and constants come before types, so that programs are
refused that follow the rule. `Site.Grouped` and the condition that no name is declared twice in
the whole program are what is needed besides: then each name means what is visible at its place.
-/
namespace PascalJvm

namespace Source

open Environment (Mention)

namespace Item

def const? : Item → Option (String × ConstExpr)
  | .decl (.const n e) => some (n, e)
  | _ => none

def type? : Item → Option (String × TypeSpec)
  | .decl (.type n spec) => some (n, spec)
  | _ => none

def var? : Item → Option (String × TypeRef)
  | .var n ty => some (n, ty)
  | _ => none

def routine? : Item → Option (Heading × Block)
  | .routine heading inner body => some (heading, gather body inner)
  | _ => none

variable {i : Item}

@[simp] theorem const?_eq_some {x : String × ConstExpr} :
    i.const? = some x ↔ i = .decl (.const x.1 x.2) := by
  match i with
  | .decl (.const n e) => simp [const?, Prod.ext_iff]
  | .decl (.type _ _) | .var _ _ | .routine _ _ _ => simp [const?]

@[simp] theorem type?_eq_some {x : String × TypeSpec} :
    i.type? = some x ↔ i = .decl (.type x.1 x.2) := by
  match i with
  | .decl (.type n spec) => simp [type?, Prod.ext_iff]
  | .decl (.const _ _) | .var _ _ | .routine _ _ _ => simp [type?]

@[simp] theorem var?_eq_some {x : String × TypeRef} : i.var? = some x ↔ i = .var x.1 x.2 := by
  match i with
  | .var n ty => simp [var?, Prod.ext_iff]
  | .decl _ | .routine _ _ _ => simp [var?]

@[simp] theorem routine?_eq_some {x : Heading × Block} :
    i.routine? = some x ↔ ∃ inner body, i = .routine x.1 inner body ∧ gather body inner = x.2 := by
  match i with
  | .routine heading inner body => simp [routine?, Prod.ext_iff]
  | .decl _ | .var _ _ => simp [routine?]

end Item

/-- Each table of a block has the items of its kind. -/
lemma gather_eq (body : Stmt) (items : List Item) :
    gather body items = ⟨items.filterMap Item.const?, items.filterMap Item.type?,
      items.filterMap Item.var?, items.filterMap Item.routine?, body⟩ := by
  induction items with
  | nil => rfl
  | cons i rest ih =>
    rw [gather, ih]
    cases i with
    | decl d => cases d <;> rfl
    | var _ _ => rfl
    | routine _ _ _ => rfl

/-- The names that are declared earlier, in the same block or in a block around it. -/
structure Visible where
  /-- constants, and the enumeration values of the blocks around -/
  constants : List String
  /-- the enumeration values of the same block -/
  values : List String
  types : List String

namespace Visible

def all (v : Visible) : List String := v.constants ++ v.values

def after (v : Visible) : Item → Visible
  | .decl (.const n _) => ⟨v.constants ++ [n], v.values, v.types⟩
  | .decl (.type n spec) =>
      ⟨v.constants, v.values ++ (Declaration.type n spec).constants, v.types ++ [n]⟩
  | _ => v

/-- At the start of a routine. -/
def inside (v : Visible) : Visible := ⟨v.all, [], v.types⟩

end Visible

/-- A declaration in its place. -/
structure Site where
  path : ScopePath
  visible : Visible
  decl : Declaration

mutual

def Item.sites (path : ScopePath) (v : Visible) : Item → List Site
  | .decl d => [⟨path, v, d⟩]
  | .var _ _ => []
  | .routine heading items _ => sites (path ++ [heading.name]) v.inside items

/-- The declarations of constants and types in a block and in the blocks inside it. -/
def sites (path : ScopePath) (v : Visible) : List Item → List Site
  | [] => []
  | i :: rest => i.sites path v ++ sites path (v.after i) rest

end

/-- Every name that is used is visible. -/
def Site.Lexical (s : Site) : Prop :=
  (∀ n ∈ s.decl.usedConstants, n ∈ s.visible.all) ∧ ∀ n ∈ s.decl.usedTypes, n ∈ s.visible.types

/-- Besides, a constant uses no enumeration value of its own block. -/
def Site.Grouped (s : Site) : Prop :=
  s.Lexical ∧ match s.decl with
    | .const _ e => ∀ n ∈ e.names, n ∈ s.visible.constants
    | .type _ _ => True

instance : DecidablePred Site.Lexical := fun _ => inferInstanceAs (Decidable (_ ∧ _))

instance : DecidablePred Site.Grouped
  | ⟨path, v, .const n e⟩ =>
      inferInstanceAs (Decidable (Site.Lexical ⟨path, v, .const n e⟩ ∧ ∀ n ∈ e.names, n ∈ v.constants))
  | ⟨path, v, .type n spec⟩ => inferInstanceAs (Decidable (Site.Lexical ⟨path, v, .type n spec⟩ ∧ True))

/-- What the items of one block declare, of one sort. -/
def ownNames (names : Declaration → List String) (items : List Item) : List String :=
  items.flatMap fun
    | .decl d => names d
    | _ => []

mutual

def Item.declared (names : Declaration → List String) : Item → List String
  | .decl d => names d
  | .var _ _ => []
  | .routine _ items _ => declared names items

/-- What a block and the blocks inside it declare, of one sort. -/
def declared (names : Declaration → List String) : List Item → List String
  | [] => []
  | i :: rest => i.declared names ++ declared names rest

end

mutual

def Item.chains (names : Declaration → List String) (above : List String) :
    Item → List (List String)
  | .routine _ items _ =>
      (above ++ ownNames names items) :: nestedChains names (above ++ ownNames names items) items
  | _ => []

/-- For each block inside, what it and the blocks around it declare, of one sort. -/
def nestedChains (names : Declaration → List String) (above : List String) :
    List Item → List (List String)
  | [] => []
  | i :: rest => i.chains names above ++ nestedChains names above rest

end

mutual

def Item.mentions (path : ScopePath) (types : List String) : Item → List Mention
  | .decl _ => []
  | .var _ ty => if path.isEmpty then [⟨types, ty⟩] else []
  | .routine heading items _ =>
      heading.types.map (⟨types, ·⟩) ++
        mentions (path ++ [heading.name]) (types ++ ownNames Declaration.types items) items

/-- The types of program variables, parameters and results. -/
def mentions (path : ScopePath) (types : List String) : List Item → List Mention
  | [] => []
  | i :: rest => i.mentions path types ++ mentions path types rest

end

namespace Outline

def sites (o : Outline) : List Site := Source.sites [] ⟨[], [], []⟩ o.items

def declared (o : Outline) (names : Declaration → List String) : List String :=
  Source.declared names o.items

/-- For each block, what it and the blocks around it declare, of one sort. -/
def chains (o : Outline) (names : Declaration → List String) : List (List String) :=
  ownNames names o.items :: nestedChains names (ownNames names o.items) o.items

def mentions (o : Outline) : List Mention :=
  Source.mentions [] (ownNames Declaration.types o.items) o.items

/-- Each name is declared before it is used, and never twice in blocks that enclose each other. -/
def Lexical (o : Outline) : Prop :=
  (∀ s ∈ o.sites, s.Lexical) ∧ (∀ c ∈ o.chains Declaration.constants, c.Nodup) ∧
    ∀ c ∈ o.chains Declaration.types, c.Nodup

/-- The same for a table of all constants, where those of a block come before its types. -/
structure Grouped (o : Outline) : Prop where
  sites : ∀ s ∈ o.sites, s.Grouped
  constants : (o.declared Declaration.constants).Nodup
  types : (o.declared Declaration.types).Nodup

instance : DecidablePred Lexical := fun _ => inferInstanceAs (Decidable (_ ∧ _ ∧ _))

instance : DecidablePred Grouped := fun o =>
  decidable_of_iff ((∀ s ∈ o.sites, s.Grouped) ∧ (o.declared Declaration.constants).Nodup ∧
    (o.declared Declaration.types).Nodup)
    ⟨fun ⟨h, h', h''⟩ => ⟨h, h', h''⟩, fun h => ⟨h.sites, h.constants, h.types⟩⟩

end Outline

/-- Blocks from the inside out. -/
theorem items_induction {P : List Item → Prop}
    (h : ∀ items, (∀ heading inner body, Item.routine heading inner body ∈ items → P inner) →
      P items) (items : List Item) : P items :=
  h items fun heading inner body hmem =>
    have : sizeOf inner < sizeOf items := by
      have := List.sizeOf_lt_of_mem hmem
      simp only [Item.routine.sizeOf_spec] at this
      omega
    items_induction h inner
termination_by sizeOf items

end Source

namespace Environment

open Source

/-- The tables with the entries of these names only. -/
def restrict (env : Environment) (constants types : List String) : Environment :=
  { env with
    consts := constants.filterMap fun n => (env.consts.lookup n).map (n, ·)
    types := types.filterMap fun n => (env.types.lookup n).map (n, ·) }

end Environment

/-- The declaration gives, from the tables of what is visible at its place, what is in the tables
of the program. -/
def Source.Site.Resolves (s : Source.Site) (env : Environment) : Prop :=
  let visible := env.restrict s.visible.all s.visible.types
  match s.decl with
  | .const n e => ∃ c, Constant.eval visible.consts e = .ok c ∧ env.consts.lookup n = some c
  | .type n spec => ∃ visible' t, Environment.specify s.path visible n spec = .ok (visible', t) ∧
      env.types.lookup n = some t ∧ ∀ x ∈ visible'.consts, env.consts.lookup x.1 = some x.2

namespace Environment

open Source

variable {path : ScopePath} {v : Visible} {items : List Item} {body : Stmt} {b : Block}
  {mentions : List Mention} {constants types : List String}
  {names : Declaration → List String}

lemma blockSteps_eq (path : ScopePath) (b : Block) :
    blockSteps path b = ownSteps path b ++ nestedSteps path b.routines := by
  cases b
  rw [blockSteps]

lemma nestedSteps_eq (path : ScopePath) (rs : List (Heading × Block)) :
    nestedSteps path rs = rs.flatMap fun r => blockSteps (path ++ [r.1.name]) r.2 := by
  induction rs with
  | nil => rfl
  | cons r rest ih => rw [nestedSteps, ih, List.flatMap_cons]

/-- The declarations of constants and types among the steps of a block. -/
lemma declare_mem_blockSteps {q : ScopePath} {d : Declaration} :
    .declare q d ∈ blockSteps path b ↔
      (q = path ∧ ((∃ x ∈ b.consts, d = .const x.1 x.2) ∨ ∃ x ∈ b.types, d = .type x.1 x.2)) ∨
      ∃ r ∈ b.routines, .declare q d ∈ blockSteps (path ++ [r.1.name]) r.2 := by
  rw [blockSteps_eq, nestedSteps_eq, List.mem_append, List.mem_flatMap, declare_mem_ownSteps]

/-- A declaration is one of the block itself, or of a block inside it. -/
lemma mem_sites {site : Site} (h : site ∈ sites path v items) :
    (site.path = path ∧ .decl site.decl ∈ items) ∨ ∃ heading inner body v',
      .routine heading inner body ∈ items ∧ site ∈ sites (path ++ [heading.name]) v' inner := by
  induction items generalizing v with
  | nil => cases h
  | cons i rest ih =>
    rcases List.mem_append.mp h with h | h
    · match i, h with
      | .decl d, h =>
        obtain rfl := List.mem_singleton.mp h
        exact .inl ⟨rfl, List.mem_cons_self⟩
      | .routine heading inner body, h =>
        exact .inr ⟨heading, inner, body, v.inside, List.mem_cons_self, h⟩
    · rcases ih h with ⟨hpath, hmem⟩ | ⟨heading, inner, body, v', hmem, h⟩
      · exact .inl ⟨hpath, List.mem_cons_of_mem _ hmem⟩
      · exact .inr ⟨heading, inner, body, v', List.mem_cons_of_mem _ hmem, h⟩

/-- Every declaration is a step. -/
theorem declare_mem_of_site {site : Site} (h : site ∈ sites path v items) (body : Stmt) :
    .declare site.path site.decl ∈ blockSteps path (gather body items) := by
  induction items using items_induction generalizing path v body with
  | h items ih =>
    rw [declare_mem_blockSteps, gather_eq]
    rcases mem_sites h with ⟨hpath, hmem⟩ | ⟨heading, inner, body', v', hmem, h⟩
    · left
      refine ⟨hpath, ?_⟩
      cases hdecl : site.decl with
      | const n e => exact .inl ⟨(n, e), by simpa [hdecl] using hmem, rfl⟩
      | type n spec => exact .inr ⟨(n, spec), by simpa [hdecl] using hmem, rfl⟩
    · right
      exact ⟨(heading, gather body' inner), List.mem_filterMap.mpr ⟨_, hmem, rfl⟩,
        ih heading inner body' hmem h body'⟩

lemma flatMap_declared_headingSteps (seen : List String) (rs : List (Heading × Block)) :
    (headingSteps path seen rs).flatMap (Step.declared names) = [] := by
  induction rs generalizing seen with
  | nil => rfl
  | cons r rest ih =>
    rw [headingSteps, List.flatMap_cons, ih]
    rfl

lemma flatMap_declared_blockSteps (path : ScopePath) (b : Block) :
    (blockSteps path b).flatMap (Step.declared names) =
      (b.consts.flatMap fun d => names (.const d.1 d.2)) ++
        ((b.types.flatMap fun d => names (.type d.1 d.2)) ++
          (nestedSteps path b.routines).flatMap (Step.declared names)) := by
  have hvars : (if path.isEmpty then b.vars.map fun d => Step.var path d.1 d.2 else []).flatMap
      (Step.declared names) = [] := by
    split_ifs
    · simp [Step.declared, List.flatMap_map]
    · rfl
  rw [blockSteps_eq, ownSteps]
  simp only [List.flatMap_append, List.flatMap_map, Step.declared, hvars,
    flatMap_declared_headingSteps, List.append_assoc, List.nil_append]

/-- The steps declare the names of the text, in another order. -/
theorem count_declared_blockSteps (n : String) (path : ScopePath) (body : Stmt)
    (items : List Item) :
    ((blockSteps path (gather body items)).flatMap (Step.declared names)).count n =
      (declared names items).count n := by
  induction items using items_induction generalizing path body with
  | h items ih =>
    rw [flatMap_declared_blockSteps, gather_eq]
    dsimp only
    induction items with
    | nil => rfl
    | cons i rest ihrest =>
      have hrest := ihrest fun heading inner body hmem => ih heading inner body
        (List.mem_cons_of_mem _ hmem)
      rw [declared]
      match i with
      | .decl (.const m e) =>
        simp only [List.filterMap_cons, Item.const?, Item.type?, Item.routine?, List.flatMap_cons,
          List.count_append, Item.declared] at hrest ⊢
        omega
      | .decl (.type m spec) =>
        simp only [List.filterMap_cons, Item.const?, Item.type?, Item.routine?, List.flatMap_cons,
          List.count_append, Item.declared] at hrest ⊢
        omega
      | .var m ty =>
        simp only [List.filterMap_cons, Item.const?, Item.type?, Item.routine?,
          List.count_append, Item.declared, List.count_nil] at hrest ⊢
        omega
      | .routine heading inner body =>
        have hinner := ih heading inner body List.mem_cons_self (path ++ [heading.name]) body
        simp only [List.filterMap_cons, Item.const?, Item.type?, Item.routine?, nestedSteps,
          List.flatMap_append, List.count_append, Item.declared] at hrest hinner ⊢
        omega

lemma count_all_after (n : String) (v : Visible) (d : Declaration) :
    (v.after (.decl d)).all.count n = v.all.count n + d.constants.count n := by
  cases d with
  | const m e =>
    simp only [Visible.after, Visible.all, Declaration.constants, List.count_append]
    omega
  | type m spec =>
    simp only [Visible.after, Visible.all, List.count_append]
    omega

lemma mem_all_after {n : String} {d : Declaration} :
    n ∈ (v.after (.decl d)).all ↔ n ∈ v.all ∨ n ∈ d.constants := by
  rw [← List.count_pos_iff, count_all_after, Nat.add_pos_iff_pos_or_pos, List.count_pos_iff,
    List.count_pos_iff]

lemma mem_types_after {n : String} {d : Declaration} :
    n ∈ (v.after (.decl d)).types ↔ n ∈ v.types ∨ n ∈ d.types := by
  cases d with
  | const m e => simp [Visible.after, Declaration.types]
  | type m spec => simp [Visible.after, Declaration.types]

/-- Where each name is declared once, a declaration declares none that it sees. -/
theorem count_site_le {site : Site} (h : site ∈ sites path v items) {n : String}
    (hn : v.all.count n + (declared Declaration.constants items).count n ≤ 1) :
    site.visible.all.count n + site.decl.constants.count n ≤ 1 := by
  induction items using items_induction generalizing path v with
  | h items ih =>
    induction items generalizing v with
    | nil => cases h
    | cons i rest ihrest =>
      have hrest := @ihrest fun heading inner body hmem => ih heading inner body
        (List.mem_cons_of_mem _ hmem)
      rw [declared, List.count_append] at hn
      rcases List.mem_append.mp h with h | h
      · match i, h with
        | .decl d, h =>
          obtain rfl := List.mem_singleton.mp h
          rw [Item.declared] at hn
          dsimp only
          omega
        | .routine heading inner body, h =>
          refine ih heading inner body List.mem_cons_self h ?_
          rw [Item.declared] at hn
          simp only [Visible.inside, Visible.all, List.count_append, List.count_nil] at hn ⊢
          omega
      · refine hrest h ?_
        match i with
        | .decl d =>
          rw [count_all_after]
          rw [Item.declared] at hn
          omega
        | .var m ty => exact (Nat.add_le_add_left (Nat.le_add_left _ _) _).trans hn
        | .routine heading inner body =>
          exact (Nat.add_le_add_left (Nat.le_add_left _ _) _).trans hn

lemma stepsSupplied_append {xs ys : List Step} :
    StepsSupplied mentions constants types (xs ++ ys) ↔
      StepsSupplied mentions constants types xs ∧
      StepsSupplied mentions (constants ++ xs.flatMap (Step.declared Declaration.constants))
        (types ++ xs.flatMap (Step.declared Declaration.types)) ys := by
  induction xs generalizing constants types with
  | nil => simp [StepsSupplied]
  | cons x xs ih =>
    simp only [List.cons_append, StepsSupplied, ih, List.flatMap_cons, List.append_assoc, and_assoc]

/-- Steps that declare nothing are supplied one by one. -/
lemma stepsSupplied_of_forall {xs : List Step} (hnone : ∀ s ∈ xs, ∀ names, s.declared names = [])
    (h : ∀ s ∈ xs, s.Supplied mentions constants types) :
    StepsSupplied mentions constants types xs := by
  induction xs with
  | nil => trivial
  | cons x xs ih =>
    rw [List.forall_mem_cons] at hnone h
    refine ⟨h.1, ?_⟩
    rw [hnone.1, hnone.1, List.append_nil, List.append_nil]
    exact ih hnone.2 h.2

/-- Constants are supplied by the constants before them. -/
lemma consts_supplied (hv : v.constants ⊆ constants) (hsites : ∀ s ∈ sites path v items, s.Grouped) :
    StepsSupplied mentions constants types
      ((items.filterMap Item.const?).map fun d => .declare path (.const d.1 d.2)) := by
  induction items generalizing v constants types with
  | nil => trivial
  | cons i rest ih =>
    rw [sites, List.forall_mem_append] at hsites
    obtain ⟨hi, hrest⟩ := hsites
    match i with
    | .decl (.const n e) =>
      obtain ⟨-, hnames⟩ := hi _ (List.mem_singleton.mpr rfl)
      refine ⟨⟨fun m hm => hv (hnames m hm), by simp [Declaration.usedTypes]⟩, ih ?_ hrest⟩
      exact List.append_subset.mpr ⟨List.subset_append_of_subset_left _ hv,
        List.subset_append_right _ _⟩
    | .decl (.type _ _) =>
      refine ih ?_ hrest
      exact hv
    | .var _ _ => exact ih hv hrest
    | .routine _ _ _ => exact ih hv hrest

/-- Types are supplied by the types before them and all constants of the block. -/
lemma types_supplied (hv : v.all ⊆ constants) (hvt : v.types ⊆ types)
    (hconsts : ∀ n e, .decl (.const n e) ∈ items → n ∈ constants)
    (hsites : ∀ s ∈ sites path v items, s.Grouped) :
    StepsSupplied mentions constants types
      ((items.filterMap Item.type?).map fun d => .declare path (.type d.1 d.2)) := by
  induction items generalizing v constants types with
  | nil => trivial
  | cons i rest ih =>
    rw [sites, List.forall_mem_append] at hsites
    obtain ⟨hi, hrest⟩ := hsites
    have hconsts' : ∀ n e, .decl (.const n e) ∈ rest → n ∈ constants :=
      fun n e hmem => hconsts n e (List.mem_cons_of_mem _ hmem)
    match i with
    | .decl (.const n e) =>
      refine ih (fun m hm => ?_) ?_ hconsts' hrest
      · rcases mem_all_after.mp hm with hm | hm
        · exact hv hm
        · rw [List.mem_singleton.mp hm]
          exact hconsts n e List.mem_cons_self
      · exact hvt
    | .decl (.type n spec) =>
      obtain ⟨⟨hused, husedTypes⟩, -⟩ := hi _ (List.mem_singleton.mpr rfl)
      refine ⟨⟨fun m hm => hv (hused m hm), fun m hm => hvt (husedTypes m hm)⟩,
        ih (fun m hm => ?_) (fun m hm => ?_) ?_ hrest⟩
      · exact List.mem_append.mpr ((mem_all_after.mp hm).imp_left (hv ·))
      · exact List.mem_append.mpr ((mem_types_after.mp hm).imp_left (hvt ·))
      · exact fun m e hmem => List.mem_append_left _ (hconsts' m e hmem)
    | .var _ _ => exact ih hv hvt hconsts' hrest
    | .routine _ _ _ => exact ih hv hvt hconsts' hrest

lemma mem_ownNames {n : String} :
    n ∈ ownNames names items ↔ ∃ d, .decl d ∈ items ∧ n ∈ names d := by
  simp only [ownNames, List.mem_flatMap]
  constructor
  · rintro ⟨i, hi, hn⟩
    match i, hn with
    | .decl d, hn => exact ⟨d, hi, hn⟩
  · rintro ⟨d, hd, hn⟩
    exact ⟨_, hd, hn⟩

def constSteps (path : ScopePath) (items : List Item) : List Step :=
  (items.filterMap Item.const?).map fun d => .declare path (.const d.1 d.2)

def typeSteps (path : ScopePath) (items : List Item) : List Step :=
  (items.filterMap Item.type?).map fun d => .declare path (.type d.1 d.2)

/-- The steps of the constants and types of a block declare what its items do. -/
lemma mem_declared_of_decl {d : Declaration} (h : .decl d ∈ items) {n : String} (hn : n ∈ names d) :
    n ∈ (constSteps path items).flatMap (Step.declared names) ∨
      n ∈ (typeSteps path items).flatMap (Step.declared names) := by
  simp only [constSteps, typeSteps, List.flatMap_map, List.mem_flatMap, List.mem_filterMap]
  cases d with
  | const m e => exact .inl ⟨(m, e), ⟨_, h, rfl⟩, hn⟩
  | type m spec => exact .inr ⟨(m, spec), ⟨_, h, rfl⟩, hn⟩

/-- The steps of a block are supplied, wherever it stands. -/
def BlockSupplied (mentions : List Mention) (items : List Item) : Prop :=
  ∀ ⦃path : ScopePath⦄ ⦃v : Visible⦄ ⦃constants types above : List String⦄ (body : Stmt),
    v.all ⊆ constants → v.types ⊆ types → above ⊆ types →
    (∀ s ∈ sites path v items, s.Grouped) →
    Source.mentions path (above ++ ownNames Declaration.types items) items ⊆ mentions →
    StepsSupplied mentions constants types (blockSteps path (gather body items))

lemma nested_supplied
    (hinner : ∀ heading inner body, .routine heading inner body ∈ items →
      BlockSupplied mentions inner) {around : List String}
    (hv : v.all ⊆ constants) (hvt : v.types ⊆ types)
    (hown : ∀ d, .decl d ∈ items → d.constants ⊆ constants ∧ d.types ⊆ types)
    (haround : around ⊆ types) (hsites : ∀ s ∈ sites path v items, s.Grouped)
    (hmentions : Source.mentions path around items ⊆ mentions) :
    StepsSupplied mentions constants types
      (nestedSteps path (items.filterMap Item.routine?)) := by
  induction items generalizing v constants types with
  | nil => trivial
  | cons i rest ih =>
    rw [sites, List.forall_mem_append] at hsites
    rw [Source.mentions, List.append_subset] at hmentions
    have hinner' := fun heading inner body hmem =>
      hinner heading inner body (List.mem_cons_of_mem i hmem)
    have hown' := fun d hmem => hown d (List.mem_cons_of_mem i hmem)
    match i with
    | .decl d =>
      obtain ⟨hconstants, htypes⟩ := hown d List.mem_cons_self
      refine ih hinner' (fun m hm => ?_) (fun m hm => ?_) hown' haround hsites.2 hmentions.2
      · exact (mem_all_after.mp hm).elim (hv ·) (hconstants ·)
      · exact (mem_types_after.mp hm).elim (hvt ·) (htypes ·)
    | .var n ty => exact ih hinner' hv hvt hown' haround hsites.2 hmentions.2
    | .routine heading inner body =>
      rw [List.filterMap_cons, Item.routine?, nestedSteps, stepsSupplied_append]
      rw [Item.mentions, List.append_subset] at hmentions
      constructor
      · have hinside : v.inside.all ⊆ constants := by
          rw [Visible.inside, Visible.all, List.append_nil]
          exact hv
        exact hinner heading inner body List.mem_cons_self body hinside hvt haround hsites.1
          hmentions.1.2
      · refine ih hinner' (List.subset_append_of_subset_left _ hv)
          (List.subset_append_of_subset_left _ hvt) (fun d hmem => ?_)
          (List.subset_append_of_subset_left _ haround) hsites.2 hmentions.2
        exact ⟨List.subset_append_of_subset_left _ (hown' d hmem).1,
          List.subset_append_of_subset_left _ (hown' d hmem).2⟩

lemma mention_var {n : String} {ty : TypeRef} (hpath : path.isEmpty = true) {around : List String}
    (h : .var n ty ∈ items) : ⟨around, ty⟩ ∈ Source.mentions path around items := by
  induction items with
  | nil => cases h
  | cons i rest ih =>
    rcases List.mem_cons.mp h with rfl | h
    · refine List.mem_append_left _ ?_
      rw [Item.mentions, if_pos hpath]
      exact List.mem_singleton.mpr rfl
    · exact List.mem_append_right _ (ih h)

lemma mention_heading {heading : Heading} {inner : List Item} {ty : TypeRef} {around : List String}
    (h : .routine heading inner body ∈ items) (hty : ty ∈ heading.types) :
    ⟨around, ty⟩ ∈ Source.mentions path around items := by
  induction items with
  | nil => cases h
  | cons i rest ih =>
    rcases List.mem_cons.mp h with rfl | h
    · refine List.mem_append_left _ (List.mem_append_left _ ?_)
      exact List.mem_map.mpr ⟨ty, hty, rfl⟩
    · exact List.mem_append_right _ (ih h)

lemma vars_supplied {around : List String} (haround : around ⊆ types)
    (hmentions : Source.mentions path around items ⊆ mentions) :
    StepsSupplied mentions constants types (if path.isEmpty then
      (items.filterMap Item.var?).map fun d => .var path d.1 d.2 else []) := by
  split_ifs with hpath
  · refine stepsSupplied_of_forall (fun s hs names => ?_) fun s hs => ?_
    · obtain ⟨x, -, rfl⟩ := List.mem_map.mp hs
      rfl
    · obtain ⟨x, hx, rfl⟩ := List.mem_map.mp hs
      obtain ⟨i, hi, hix⟩ := List.mem_filterMap.mp hx
      rw [Item.var?_eq_some] at hix
      subst hix
      exact ⟨_, hmentions (mention_var hpath hi), rfl, haround⟩
  · trivial

lemma headings_supplied {around : List String} (haround : around ⊆ types)
    (hmentions : Source.mentions path around items ⊆ mentions) :
    StepsSupplied mentions constants types
      (headingSteps path [] (items.filterMap Item.routine?)) := by
  have hsteps (seen : List String) (rs : List (Heading × Block)) (s : Step)
      (hs : s ∈ headingSteps path seen rs) : ∃ r ∈ rs, ∃ seen', s = .heading path seen' r := by
    induction rs generalizing seen with
    | nil => cases hs
    | cons r rest ih =>
      rcases List.mem_cons.mp hs with rfl | hs
      · exact ⟨r, List.mem_cons_self, seen, rfl⟩
      · obtain ⟨r', hr', seen', rfl⟩ := ih _ hs
        exact ⟨r', List.mem_cons_of_mem _ hr', seen', rfl⟩
  refine stepsSupplied_of_forall (fun s hs names => ?_) fun s hs => ?_
  · obtain ⟨r, -, seen, rfl⟩ := hsteps _ _ s hs
    rfl
  · obtain ⟨⟨heading, b⟩, hr, seen, rfl⟩ := hsteps _ _ s hs
    obtain ⟨i, hi, hir⟩ := List.mem_filterMap.mp hr
    obtain ⟨inner, body, rfl, -⟩ := Item.routine?_eq_some.mp hir
    exact fun ty hty => ⟨_, hmentions (mention_heading hi hty), rfl, haround⟩

/-- The steps of a block whose declarations are grouped are supplied. -/
theorem blockSupplied (items : List Item) : BlockSupplied mentions items := by
  induction items using items_induction with
  | h items ih =>
    intro path v constants types above body hv hvt habove hsites hmentions
    have hnames {names : Declaration → List String} {old : List String} (d : Declaration)
        (hd : .decl d ∈ items) : names d ⊆ old ++
          (constSteps path items).flatMap (Step.declared names) ++
          (typeSteps path items).flatMap (Step.declared names) := by
      intro n hn
      rw [List.append_assoc, List.mem_append, List.mem_append]
      exact .inr (mem_declared_of_decl hd hn)
    have haround : above ++ ownNames Declaration.types items ⊆ types ++
        (constSteps path items).flatMap (Step.declared Declaration.types) ++
        (typeSteps path items).flatMap (Step.declared Declaration.types) := by
      rw [List.append_assoc]
      refine List.append_subset.mpr ⟨List.subset_append_of_subset_left _ habove, fun n hn => ?_⟩
      obtain ⟨d, hd, hn⟩ := mem_ownNames.mp hn
      rw [← List.append_assoc]
      exact hnames d hd hn
    rw [blockSteps_eq, gather_eq]
    change StepsSupplied _ _ _ ((constSteps path items ++ (typeSteps path items ++ _)) ++ _)
    rw [← List.append_assoc (constSteps path items), List.append_assoc]
    refine stepsSupplied_append.mpr ⟨stepsSupplied_append.mpr ⟨?_, ?_⟩, ?_⟩
    · exact consts_supplied (fun n hn => hv (List.mem_append_left _ hn)) hsites
    · refine types_supplied (List.subset_append_of_subset_left _ hv)
        (List.subset_append_of_subset_left _ hvt) (fun n e hmem => ?_) hsites
      refine List.mem_append_right _ (List.mem_flatMap.mpr ⟨.declare path (.const n e), ?_, ?_⟩)
      · exact List.mem_map.mpr ⟨(n, e), List.mem_filterMap.mpr ⟨_, hmem, rfl⟩, rfl⟩
      · exact List.mem_singleton.mpr rfl
    · simp only [List.flatMap_append, ← List.append_assoc]
      refine stepsSupplied_append.mpr ⟨stepsSupplied_append.mpr ⟨?_, ?_⟩, ?_⟩
      · exact vars_supplied haround hmentions
      · exact headings_supplied (List.subset_append_of_subset_left _ haround) hmentions
      · simp only [List.flatMap_append, ← List.append_assoc]
        refine nested_supplied ih ?_ ?_ (fun d hd => ⟨?_, ?_⟩) ?_ hsites hmentions <;>
          refine List.subset_append_of_subset_left _ (List.subset_append_of_subset_left _ ?_)
        · simp only [List.append_assoc]
          exact List.subset_append_of_subset_left _ hv
        · simp only [List.append_assoc]
          exact List.subset_append_of_subset_left _ hvt
        · exact hnames d hd
        · exact hnames d hd
        · exact haround

/-- The steps of a program whose declarations are grouped fail for other reasons. -/
theorem fails_of_grouped {o : Outline} (h : o.Grouped) :
    Fails (Tolerated o.mentions) (ofProgram o.program) := by
  have hnodup (names : Declaration → List String) (hn : (o.declared names).Nodup) :
      ((blockSteps [] (gather o.body o.items)).flatMap (Step.declared names)).Nodup := by
    rw [List.nodup_iff_count_le_one] at hn ⊢
    intro n
    rw [count_declared_blockSteps]
    exact hn n
  rw [ofProgram, declareBlock_eq_steps]
  exact steps_fail rfl rfl (blockSupplied o.items o.body (List.nil_subset _) (List.nil_subset _)
    (List.nil_subset _) h.sites (List.Subset.refl _)) (hnodup _ h.constants) (hnodup _ h.types)

lemma lookup_filterMap {α : Type} (xs : List (String × α)) (names : List String) (n : String) :
    (names.filterMap fun m => (xs.lookup m).map (m, ·)).lookup n =
      if n ∈ names then xs.lookup n else none := by
  induction names with
  | nil => rfl
  | cons m names ih =>
    rw [List.filterMap_cons]
    cases hm : xs.lookup m with
    | none =>
      simp only [Option.map_none, ih, List.mem_cons]
      by_cases hnm : n = m
      · subst hnm
        simp [hm]
      · simp [hnm]
    | some a =>
      simp only [Option.map_some, List.lookup_cons, ih, List.mem_cons]
      by_cases hnm : n = m
      · subst hnm
        simp [hm]
      · simp [hnm, beq_eq_false_iff_ne.mpr hnm]

lemma lookup_of_mem_filterMap {α : Type} {xs : List (String × α)} {names : List String}
    {x : String × α} (h : x ∈ names.filterMap fun m => (xs.lookup m).map (m, ·)) :
    xs.lookup x.1 = some x.2 ∧ x.1 ∈ names := by
  obtain ⟨m, hm, hx⟩ := List.mem_filterMap.mp h
  obtain ⟨a, ha, rfl⟩ := Option.map_eq_some_iff.mp hx
  exact ⟨ha, hm⟩

/-- What a step found in the tables is among what is visible. -/
theorem resolves_of_run {site : Site} {env cur next : Environment} (hsite : site.Lexical)
    (hfresh : site.visible.all.Disjoint site.decl.constants)
    (hrun : (Step.declare site.path site.decl).run cur = .ok next) (hcur : cur.KeptIn env)
    (hnext : next.KeptIn env) : site.Resolves env := by
  obtain ⟨path, v, d⟩ := site
  have hconsts : ∀ n ∈ d.usedConstants, ∀ c, cur.consts.lookup n = some c →
      (env.restrict v.all v.types).consts.lookup n = some c := by
    intro n hn c hc
    rw [restrict, lookup_filterMap, if_pos (hsite.1 n hn)]
    exact hcur.consts hc
  have htypes : ∀ n ∈ d.usedTypes, ∀ t, cur.types.lookup n = some t →
      (env.restrict v.all v.types).types.lookup n = some t := by
    intro n hn t ht
    rw [restrict, lookup_filterMap, if_pos (hsite.2 n hn)]
    exact hcur.types ht
  cases d with
  | const n e =>
    obtain ⟨hnew, c, hc, rfl⟩ := declareConst_ok hrun
    refine ⟨c, eval_mono e hconsts hc, hnext.consts ?_⟩
    rw [addConst, lookup_append_of_notMem hnew]
    exact List.lookup_cons_self
  | type n spec =>
    obtain ⟨hnew, mid, t, hspec, rfl⟩ := declareType_ok hrun
    have hdisjoint : ((env.restrict v.all v.types).consts.map Prod.fst).Disjoint
        (Declaration.type n spec).constants := by
      intro m hm
      obtain ⟨x, hx, rfl⟩ := List.mem_map.mp hm
      exact hfresh (lookup_of_mem_filterMap hx).2
    obtain ⟨visible', newConsts, hvisible, hmid, hnew'⟩ :=
      specify_mono hconsts htypes hdisjoint hspec
    obtain ⟨added, hadded, htypes', hnames, hdisjoint', hnodup⟩ := specify_adds hspec
    obtain rfl := List.append_cancel_left (hadded.symm.trans hmid)
    refine ⟨visible', t, hvisible, hnext.types ?_, fun x hx => ?_⟩
    · rw [addType, htypes', lookup_append_of_notMem hnew]
      exact List.lookup_cons_self
    · rw [hnew', List.mem_append] at hx
      rcases hx with hx | hx
      · exact (lookup_of_mem_filterMap hx).1
      · refine hnext.consts ?_
        have hx' : x.1 ∈ (Declaration.type n spec).constants :=
          hnames ▸ List.mem_map.mpr ⟨x, hx, rfl⟩
        rw [addType, hadded, lookup_append_of_notMem fun hcur' => hdisjoint' hcur' hx']
        exact lookup_of_mem (hnames ▸ hnodup) hx

end Environment

open Environment Source in
/-- Take a program in which each name of a constant or type is declared before it is used, in the
same block or in a block around it, and by a constant declaration if a constant of the same block
uses it; and in which no constant and no type is declared twice, in whatever blocks. Its
environment is not refused for an unknown or redefined constant or type, except for the type of a
variable or heading that no block around it declares. And each declaration has in the environment
the value that it has from what is visible at its place. -/
theorem names_follow_scope {text : List Char} {o : Outline} (hread : Outline.read text = some o)
    (h : o.Grouped) : ∃ p, Program.parse text = .ok p ∧
      (∀ e, ofProgram p = .error e → Tolerated o.mentions e) ∧
      ∀ env, ofProgram p = .ok env → ∀ site ∈ o.sites, site.Resolves env := by
  refine ⟨o.program, parse_eq_ok_iff_read.mpr ⟨o, hread, rfl⟩, fails_of_grouped h, ?_⟩
  intro env henv site hsite
  have hfresh : site.visible.all.Disjoint site.decl.constants := by
    intro n hv hd
    have honce : (declared Declaration.constants o.items).count n ≤ 1 :=
      List.nodup_iff_count_le_one.mp h.constants n
    have hcount := count_site_le hsite (by simpa [Visible.all] using honce)
    have hv' := List.count_pos_iff.mpr hv
    have hd' := List.count_pos_iff.mpr hd
    omega
  rw [ofProgram, declareBlock_eq_steps] at henv
  obtain ⟨cur, next, hrun, hcur, hnext⟩ :=
    (steps_taken henv).2 _ (declare_mem_of_site hsite o.body)
  exact resolves_of_run (h.sites site hsite).1 hfresh hrun hcur hnext

section

open Environment Source

/-- Sections in mixed order; the routine uses an enumeration value and a type of the program, and
the constant after it a constant that stands between the types. -/
def mixedOrder : List Char :=
  ("program p; type color = (red, green); const n = 3; type row = array[1..n] of color; " ++
    "procedure a; const last = green; type pair = record left, right: row end; begin end; " ++
    "const m = n * 2; var r: row; begin end.").toList

theorem mixedOrder_follows_scope : ∃ o p env, Outline.read mixedOrder = some o ∧ o.Grouped ∧
    Program.parse mixedOrder = .ok p ∧ ofProgram p = .ok env ∧ env.consts =
      [("n", .int 3), ("m", .int 6), ("red", .enum 0 "color"), ("green", .enum 1 "color"),
        ("last", .enum 1 "color")] ∧
    o.sites.length = 6 ∧ ∀ site ∈ o.sites, site.Resolves env := by
  have hresult : ((Outline.read mixedOrder).bind fun o =>
      if o.Grouped ∧ o.sites.length = 6 then (ofProgram o.program).toOption.map (·.consts)
      else none) = some [("n", .int 3), ("m", .int 6), ("red", .enum 0 "color"),
        ("green", .enum 1 "color"), ("last", .enum 1 "color")] := by decide +kernel
  obtain ⟨o, hread, hresult⟩ := Option.bind_eq_some_iff.mp hresult
  split_ifs at hresult with hchecks
  obtain ⟨env, henv, hconsts⟩ := Option.map_eq_some_iff.mp hresult
  rw [toOption_eq_some] at henv
  obtain ⟨p, hparse, -, hresolves⟩ := names_follow_scope hread hchecks.1
  obtain ⟨o', hread', rfl⟩ := parse_eq_ok_iff_read.mp hparse
  obtain rfl : o = o' := Option.some.inj (hread.symm.trans hread')
  exact ⟨o, _, env, hread, hchecks.1, hparse, henv, hconsts, hchecks.2, hresolves env henv⟩

/-- A constant that uses an enumeration value of its own block, declared before it. -/
def earlyValue : List Char :=
  "program p; type c = (red, green); const k = green; begin end.".toList

/-- Two routines that declare a constant of the same name. -/
def siblingNames : List Char :=
  ("program p; procedure a; const n = 1; begin end; " ++
    "procedure b; const n = 2; begin end; begin end.").toList

/-- Programs that follow lexical scope and are refused for their names. -/
theorem lexical_scope_refused :
    (∃ o p, Outline.read earlyValue = some o ∧ o.Lexical ∧ Program.parse earlyValue = .ok p ∧
      ofProgram p = .error (.unknown .const "green")) ∧
    ∃ o p, Outline.read siblingNames = some o ∧ o.Lexical ∧ Program.parse siblingNames = .ok p ∧
      ofProgram p = .error (.redefined .const "program::b" "n") := by
  have hearly : ((Outline.read earlyValue).bind fun o => if o.Lexical then
      match ofProgram o.program with
      | .error (.unknown .const n) => some n
      | _ => none
      else none) = some "green" := by decide +kernel
  have hsibling : ((Outline.read siblingNames).bind fun o => if o.Lexical then
      match ofProgram o.program with
      | .error (.redefined .const scope n) => some (scope, n)
      | _ => none
      else none) = some ("program::b", "n") := by decide +kernel
  obtain ⟨o, hread, hearly⟩ := Option.bind_eq_some_iff.mp hearly
  obtain ⟨o', hread', hsibling⟩ := Option.bind_eq_some_iff.mp hsibling
  split_ifs at hearly hsibling with hlexical' hlexical
  refine ⟨⟨o, o.program, hread, ‹_›, parse_eq_ok_iff_read.mpr ⟨o, hread, rfl⟩, ?_⟩,
    ⟨o', o'.program, hread', ‹_›, parse_eq_ok_iff_read.mpr ⟨o', hread', rfl⟩, ?_⟩⟩
  · split at hearly
    next henv => rw [henv, Option.some.inj hearly]
    next => cases hearly
  · split at hsibling
    next henv =>
      cases hsibling
      exact henv
    next => cases hsibling

end

end PascalJvm
