import Mathlib.Logic.Relation
import Mathlib.Tactic
import PascalJvm.Check.Expression
import PascalJvm.Jvm.Instr

/-!
# Well-typed trees

What the checker leaves behind, stated on the typed tree alone: every variable is one that was
declared, every operand has a type that its operator takes, and every tag is the type of what it
stands on. A tag may differ from the type of the value only where one ordinal type is taken for
another.
-/
namespace PascalJvm

namespace Ty

mutual

/-- The indices of every array are 32-bit integers, and so is its length. -/
def Valid : Ty → Prop
  | .array low len elem => low.toInt + len ≤ 2 ^ 31 ∧ len < 2 ^ 31 ∧ elem.Valid
  | .record _ fields => FieldsValid fields
  | _ => True

def FieldsValid : List (String × Ty) → Prop
  | [] => True
  | (_, t) :: rest => t.Valid ∧ FieldsValid rest

end

lemma FieldsValid.lookup {fields : List (String × Ty)} (h : FieldsValid fields) {name : String}
    {t : Ty} (ht : fields.lookup name = some t) : t.Valid := by
  induction fields with
  | nil => cases ht
  | cons field rest ih =>
    obtain ⟨n, u⟩ := field
    rw [List.lookup_cons] at ht
    obtain ⟨hu, hrest⟩ := h
    split at ht
    next =>
      cases ht
      exact hu
    next => exact ih hrest ht

/-- A value of type `t` may be tagged with type `u`. -/
def Retypes (t u : Ty) : Prop := u = t ∨ (t.isOrdinal = true ∧ u.isOrdinal = true)

lemma Retypes.refl (t : Ty) : t.Retypes t := .inl rfl

lemma Retypes.trans_ordinal {t u v : Ty} (h : t.Retypes u) (hu : u.isOrdinal = true)
    (hv : v.isOrdinal = true) : t.Retypes v := by
  rcases h with rfl | ⟨ht, -⟩
  · exact .inr ⟨hu, hv⟩
  · exact .inr ⟨ht, hv⟩

lemma eq_basic_of_is {t : Ty} {b : Basic} (h : t.is b = true) : t = .basic b := by
  cases t <;> simp_all [Ty.is]

lemma isNumeric_iff {t : Ty} : t.isNumeric = true ↔ t = .integer ∨ t = .real := by
  constructor
  · intro h
    rcases Bool.or_eq_true_iff.mp h with h | h
    · exact .inl (eq_basic_of_is h)
    · exact .inr (eq_basic_of_is h)
  · rintro (rfl | rfl) <;> rfl

lemma isAggregate_of_same {t u : Ty} (h : t.same u = true) : t.isAggregate = u.isAggregate := by
  cases t <;> cases u <;> simp_all [Ty.same, Ty.isAggregate]

lemma isOrdinal_of_same {t u : Ty} (h : t.same u = true) (ht : t.isOrdinal = true) :
    u.isOrdinal = true := by
  cases t <;> cases u <;> simp_all [Ty.same, Ty.isOrdinal]

lemma eq_of_same {t u : Ty} (h : t.same u = true) (ht : t.isAggregate = false) : t = u := by
  cases t <;> cases u <;> simp_all [Ty.same, Ty.isAggregate]

lemma isAggregate_of_isOrdinal {t : Ty} (h : t.isOrdinal = true) : t.isAggregate = false := by
  cases t <;> simp_all [Ty.isOrdinal, Ty.isAggregate]

lemma accepts_of_same {t u : Ty} (h : t.same u = true) : t.accepts u = true := by
  rw [accepts, h, Bool.true_or]

/-- Two ways to store a value: as it is, or an integer into a real. -/
lemma accepts_cases {t u : Ty} (h : t.accepts u = true) :
    t.same u = true ∨ (t = .real ∧ u = .integer) := by
  rcases Bool.or_eq_true_iff.mp h with h | h
  · exact .inl h
  · rw [Bool.and_eq_true_iff] at h
    exact .inr ⟨eq_basic_of_is h.1, eq_basic_of_is h.2⟩

end Ty

/-- The type of the variable itself. -/
def Jvm.ParamDesc.ty : Jvm.ParamDesc → Ty
  | .value t | .cell t => t

@[simp] theorem Jvm.ParamDesc.ty_ofPassing (p : Passing) : (ParamDesc.ofPassing p).ty = p.ty := by
  unfold ParamDesc.ofPassing
  split <;> rfl

namespace Typed

open Jvm (ParamDesc)

/-- The variables that a body may name: static fields, and slots that hold a value or a cell. -/
structure Variables where
  statics : List (String × Ty)
  slots : List ParamDesc
  cell_scalar : ∀ t, ParamDesc.cell t ∈ slots → t.isAggregate = false
  statics_valid : ∀ v ∈ statics, v.2.Valid
  slots_valid : ∀ d ∈ slots, d.ty.Valid

/-- The symbol is one of the variables. -/
def Symbol.Declared (Γ : Variables) (s : Symbol) : Prop :=
  match s.storage with
  | .static name => Γ.statics.lookup name = some s.ty
  | .slot n => Γ.slots[n]? = some (.value s.ty)
  | .cell n => Γ.slots[n]? = some (.cell s.ty)

/-- The type of the content of a place. -/
def Place.ty : Place → Ty
  | .root s => s.ty
  | .field _ _ _ t => t
  | .element _ _ _ elem => elem

@[simp] theorem Place.ty_root (s : Symbol) : (Place.root s).ty = s.ty := rfl

@[simp] theorem Place.ty_field (base : Place) (record name : String) (t : Ty) :
    (Place.field base record name t).ty = t := rfl

@[simp] theorem Place.ty_element (base : Place) (index : Expr) (low : Int32) (elem : Ty) :
    (Place.element base index low elem).ty = elem := rfl

mutual

def Expr.WellTyped (Γ : Variables) : Expr → Prop
  | .int t _ => t.isOrdinal = true
  | .real t _ => t = .real
  | .text t _ => t = .string
  | .read t place placeTy => place.WellTyped Γ ∧ placeTy = place.ty ∧ placeTy.Retypes t
  | .call t callee args =>
      (∃ r, callee.result = some r ∧ r.Retypes t) ∧ ArgsWellTyped Γ callee.params args
  | .unary t .neg x => x.WellTyped Γ ∧ x.ty.isNumeric = true ∧ x.ty.Retypes t
  | .unary t .not x => x.WellTyped Γ ∧ x.ty = .boolean ∧ x.ty.Retypes t
  | .binary t op a b =>
      a.WellTyped Γ ∧ b.WellTyped Γ ∧ ∃ r, Check.binaryTy op a.ty b.ty = .ok r ∧ r.Retypes t

def Place.WellTyped (Γ : Variables) : Place → Prop
  | .root s => s.Declared Γ
  | .field base record name t =>
      base.WellTyped Γ ∧
        ∃ fields, base.ty = .record record fields ∧ fields.lookup name = some t
  | .element base index low elem =>
      base.WellTyped Γ ∧ index.WellTyped Γ ∧ index.ty.isOrdinal = true ∧
        ∃ len, base.ty = .array low len elem

/-- One argument for each parameter, passed as the parameter wants it. -/
def ArgsWellTyped (Γ : Variables) : List Passing → List Arg → Prop
  | [], [] => True
  | p :: params, .value e :: args =>
      p.byRef = false ∧ e.WellTyped Γ ∧ p.ty.accepts e.ty = true ∧ ArgsWellTyped Γ params args
  | p :: params, .ref place placeTy :: args =>
      p.byRef = true ∧ place.WellTyped Γ ∧ placeTy = place.ty ∧ p.ty.same placeTy = true ∧
        ArgsWellTyped Γ params args
  | _, _ => False

end

structure Designator.WellTyped (Γ : Variables) (d : Designator) : Prop where
  place : d.place.WellTyped Γ
  ty_eq : d.ty = d.place.ty

/-- What can be written: anything but an aggregate. A width is not zero, and only reals have
decimals. -/
def WriteArg.WellTyped (Γ : Variables) : WriteArg → Prop
  | .literal _ => True
  | .value e width => e.WellTyped Γ ∧ e.ty.isAggregate = false ∧
      ∀ w ∈ width, w.width ≠ 0 ∧ (w.decimals.isNone || e.ty.is .real) = true

/-- A well-typed expression that is true or false. -/
structure Expr.Condition (Γ : Variables) (e : Expr) : Prop where
  wellTyped : e.WellTyped Γ
  ty_eq : e.ty = .boolean

mutual

def Stmt.WellTyped (Γ : Variables) : Stmt → Prop
  | .empty => True
  | .compound body => StmtsWellTyped Γ body
  | .assign target value =>
      target.WellTyped Γ ∧ value.WellTyped Γ ∧ target.ty.isAggregate = false ∧
        target.ty.accepts value.ty = true
  | .ifThen cond yes no => cond.Condition Γ ∧ yes.WellTyped Γ ∧ OptionalWellTyped Γ no
  | .caseOf selector branches otherwise =>
      selector.WellTyped Γ ∧ selector.ty.isOrdinal = true ∧ ArmsWellTyped Γ branches ∧
        OptionalWellTyped Γ otherwise
  | .repeatUntil body cond => StmtsWellTyped Γ body ∧ cond.Condition Γ
  | .whileDo cond body => cond.Condition Γ ∧ body.WellTyped Γ
  | .forDo counter first last _ body =>
      counter.WellTyped Γ ∧ counter.ty.isOrdinal = true ∧
        first.WellTyped Γ ∧ counter.ty.same first.ty = true ∧
        last.WellTyped Γ ∧ counter.ty.same last.ty = true ∧ body.WellTyped Γ ∧
        ∃ v, counter = .ofSymbol v
  | .procedureCall callee args => callee.result = none ∧ ArgsWellTyped Γ callee.params args
  | .functionCall callee args =>
      callee.result.isSome = true ∧ ArgsWellTyped Γ callee.params args
  | .write _ args => ∀ a ∈ args, a.WellTyped Γ
  | .read _ targets => ∀ d ∈ targets, d.WellTyped Γ ∧ d.ty.isBasic = true

def StmtsWellTyped (Γ : Variables) : List Stmt → Prop
  | [] => True
  | s :: rest => s.WellTyped Γ ∧ StmtsWellTyped Γ rest

def OptionalWellTyped (Γ : Variables) : Option Stmt → Prop
  | none => True
  | some s => s.WellTyped Γ

/-- Every branch of a case statement has a constant. -/
def ArmsWellTyped (Γ : Variables) : List (List Int32 × Stmt) → Prop
  | [] => True
  | (constants, s) :: rest => constants ≠ [] ∧ s.WellTyped Γ ∧ ArmsWellTyped Γ rest

end

/-- The slots of a routine: its parameters, its variables, and the result of a function. -/
def Routine.layout (r : Routine) : List ParamDesc :=
  r.signature.params.map .ofPassing ++
    (r.locals ++ r.result.toList).map fun v => .value v.ty

structure Routine.WellTyped (globals : List (String × Ty)) (r : Routine) : Prop where
  slots : (r.locals ++ r.result.toList).map Local.slot =
    List.range' r.signature.params.length (r.locals ++ r.result.toList).length
  nextSlot : r.nextSlot = r.layout.length
  result : r.result.map Local.ty = r.signature.result
  body : ∃ Γ : Variables, Γ.statics = globals ∧ Γ.slots = r.layout ∧ r.body.WellTyped Γ

structure Program.WellTyped (p : Program) : Prop where
  routines : ∀ r ∈ p.routines, r.WellTyped p.globals
  body : ∃ Γ : Variables, Γ.statics = p.globals ∧ Γ.slots = [] ∧ p.body.WellTyped Γ

lemma Symbol.Declared.valid {Γ : Variables} {s : Symbol} (h : s.Declared Γ) : s.ty.Valid := by
  unfold Symbol.Declared at h
  split at h
  next name _ =>
    rw [List.lookup_eq_some_iff] at h
    obtain ⟨before, after, hsplit, -⟩ := h
    exact Γ.statics_valid (name, s.ty) (by simp [hsplit])
  next => exact Γ.slots_valid _ (List.mem_of_getElem? h)
  next => exact Γ.slots_valid _ (List.mem_of_getElem? h)

/-- A part of a variable has a valid type, as its whole has. -/
theorem Place.WellTyped.valid {Γ : Variables} {p : Place} (h : p.WellTyped Γ) : p.ty.Valid := by
  match p with
  | .root s => exact Symbol.Declared.valid h
  | .field base record name t =>
    obtain ⟨hbase, fields, hty, hlookup⟩ := h
    have hvalid := hbase.valid
    rw [hty] at hvalid
    exact hvalid.lookup hlookup
  | .element base index low elem =>
    obtain ⟨hbase, -, -, len, hty⟩ := h
    have hvalid := hbase.valid
    rw [hty] at hvalid
    exact hvalid.2.2

/-- A variable in a cell is no aggregate, so it has no parts. -/
lemma Symbol.Declared.cell_scalar {Γ : Variables} {s : Symbol} (h : s.Declared Γ) {n : Nat}
    (hs : s.storage = .cell n) : s.ty.isAggregate = false := by
  unfold Symbol.Declared at h
  rw [hs] at h
  exact Γ.cell_scalar _ (List.mem_of_getElem? h)

lemma ArgsWellTyped.length_eq {Γ : Variables} {params : List Passing} {args : List Arg}
    (h : ArgsWellTyped Γ params args) : args.length = params.length := by
  induction params generalizing args with
  | nil =>
    cases args with
    | nil => rfl
    | cons a args => exact h.elim
  | cons p params ih =>
    cases args with
    | nil => exact h.elim
    | cons a args =>
      cases a with
      | value e => simp [ih h.2.2.2]
      | ref place placeTy => simp [ih h.2.2.2.2]

lemma ArmsWellTyped.constants {Γ : Variables} {branches : List (List Int32 × Stmt)}
    (h : ArmsWellTyped Γ branches) : ∀ vs ∈ branches.map Prod.fst, vs ≠ [] := by
  induction branches with
  | nil => simp
  | cons branch rest ih => exact List.forall_mem_cons.mpr ⟨h.1, ih h.2.2⟩

/-- Taking an ordinal value for one of another ordinal type keeps a tree well-typed. -/
lemma Expr.WellTyped.retype {Γ : Variables} {e : Expr} (h : e.WellTyped Γ)
    (he : e.ty.isOrdinal = true) {t : Ty} (ht : t.isOrdinal = true) :
    (e.retype t).WellTyped Γ := by
  cases e with
  | int u i => exact ht
  | real u x =>
    cases h
    cases he
  | text u s =>
    cases h
    cases he
  | read u place placeTy => exact ⟨h.1, h.2.1, h.2.2.trans_ordinal he ht⟩
  | call u callee args =>
    obtain ⟨⟨r, hr, hru⟩, hargs⟩ := h
    exact ⟨⟨r, hr, hru.trans_ordinal he ht⟩, hargs⟩
  | unary u op x =>
    cases op with
    | neg => exact ⟨h.1, h.2.1, h.2.2.trans_ordinal he ht⟩
    | not => exact ⟨h.1, h.2.1, h.2.2.trans_ordinal he ht⟩
  | binary u op a b =>
    obtain ⟨ha, hb, r, hr, hru⟩ := h
    exact ⟨ha, hb, r, hr, hru.trans_ordinal he ht⟩

/-- The statements that a statement consists of. -/
def Stmt.parts : Stmt → List Stmt
  | .compound body | .repeatUntil body _ => body
  | .ifThen _ yes no => yes :: no.toList
  | .caseOf _ branches otherwise => branches.map Prod.snd ++ otherwise.toList
  | .whileDo _ body | .forDo _ _ _ _ body => [body]
  | _ => []

/-- The first statement is the second one, or stands somewhere in it. -/
def Stmt.Within : Stmt → Stmt → Prop := Relation.ReflTransGen fun c d => c ∈ d.parts

/-- The statements that are made into methods, each with the slots of its variables. -/
def Program.bodies (p : Program) : List (Stmt × List ParamDesc) :=
  (p.body, []) :: p.routines.map fun r => (r.body, r.layout)

section

variable {Γ : Variables}

lemma StmtsWellTyped.of_mem {cs : List Stmt} (h : StmtsWellTyped Γ cs) {c : Stmt} (hc : c ∈ cs) :
    c.WellTyped Γ := by
  induction cs with
  | nil => cases hc
  | cons c' cs ih =>
    rcases List.mem_cons.mp hc with rfl | hc
    · exact h.1
    · exact ih h.2 hc

lemma OptionalWellTyped.of_mem {o : Option Stmt} (h : OptionalWellTyped Γ o) {c : Stmt}
    (hc : c ∈ o.toList) : c.WellTyped Γ := by
  cases o with
  | none => cases hc
  | some c' =>
    rw [List.mem_singleton.mp hc]
    exact h

lemma ArmsWellTyped.of_mem {branches : List (List Int32 × Stmt)} (h : ArmsWellTyped Γ branches)
    {c : Stmt} (hc : c ∈ branches.map Prod.snd) : c.WellTyped Γ := by
  induction branches with
  | nil => cases hc
  | cons branch rest ih =>
    rcases List.mem_cons.mp hc with rfl | hc
    · exact h.2.1
    · exact ih h.2.2 hc

lemma Stmt.WellTyped.part {c d : Stmt} (h : d.WellTyped Γ) (hc : c ∈ d.parts) : c.WellTyped Γ := by
  cases d with
  | compound body => exact StmtsWellTyped.of_mem h hc
  | repeatUntil body cond => exact StmtsWellTyped.of_mem h.1 hc
  | ifThen cond yes no =>
    rcases List.mem_cons.mp hc with rfl | hc
    · exact h.2.1
    · exact h.2.2.of_mem hc
  | caseOf selector branches otherwise =>
    rcases List.mem_append.mp hc with hc | hc
    · exact h.2.2.1.of_mem hc
    · exact h.2.2.2.of_mem hc
  | whileDo cond body =>
    rw [List.mem_singleton.mp hc]
    exact h.2
  | forDo counter first last down body =>
    rw [List.mem_singleton.mp hc]
    exact h.2.2.2.2.2.2.1
  | _ => cases hc

lemma Stmt.WellTyped.within {c d : Stmt} (h : d.WellTyped Γ) (hc : c.Within d) : c.WellTyped Γ := by
  induction hc with
  | refl => exact h
  | tail _ hpart ih => exact ih (h.part hpart)

end

/-- Every statement of a well-typed program is well-typed for the variables of its body. -/
lemma Program.WellTyped.statement {p : Program} (h : p.WellTyped) {body : Stmt}
    {slots : List ParamDesc} (hbody : (body, slots) ∈ p.bodies) {c : Stmt} (hc : c.Within body) :
    ∃ Γ : Variables, Γ.statics = p.globals ∧ Γ.slots = slots ∧ c.WellTyped Γ := by
  rcases List.mem_cons.mp hbody with heq | hmem
  · cases heq
    obtain ⟨Γ, hstatics, hslots, hwt⟩ := h.body
    exact ⟨Γ, hstatics, hslots, hwt.within hc⟩
  · obtain ⟨r, hr, heq⟩ := List.mem_map.mp hmem
    cases heq
    obtain ⟨Γ, hstatics, hslots, hwt⟩ := (h.routines r hr).body
    exact ⟨Γ, hstatics, hslots, hwt.within hc⟩

end Typed
end PascalJvm
