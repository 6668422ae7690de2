import Mathlib.Tactic
import PascalJvm.Proofs.Callees
import PascalJvm.Proofs.EmissionFaults
import PascalJvm.Proofs.FreshLabels
import PascalJvm.Proofs.RecordTypes

/-!
# What code refers to

The code of a well-typed tree refers to static fields that are variables of the program, to
records of the program and to fields that they have, and to the methods of the routines that are
called in the tree (`Instr.Refers`). It holds of whatever code comes out (`Gives`), whether or
not the assembler accepts it.
-/
namespace PascalJvm

open Jvm Typed

/-- What code may refer to: the variables and the records of the program, and the routines that
satisfy `Callee`. -/
structure Referents where
  statics : List (String × Ty)
  records : List RecordTy
  Callee : Signature → Prop

/-- The instruction refers to nothing else. -/
def Jvm.Instr.Refers (ρ : Referents) : Instr → Prop
  | .getStatic f | .putStatic f => ∃ v ∈ ρ.statics, f = .global v.1 v.2
  | .getField f | .putField f => ∃ r ∈ ρ.records, ∃ v ∈ r.fields, f = .member r.name v.1 v.2
  | .newRecord name => ∃ r ∈ ρ.records, r.name = name
  | .newArray elem => elem.Known ρ.records
  | .invokeStatic m => ∃ sig, ρ.Callee sig ∧ m = .ofSignature sig
  | _ => True

namespace Referents

/-- The variables of a body are among the referents, and so are the records in their types. -/
structure Covers (ρ : Referents) (Γ : Variables) : Prop where
  statics_eq : Γ.statics = ρ.statics
  statics : ∀ v ∈ Γ.statics, v.2.Known ρ.records
  slots : ∀ d ∈ Γ.slots, d.ty.Known ρ.records

/-- All instructions refer to the referents only. -/
def Bounds (ρ : Referents) (code : List Instr) : Prop := ∀ ins ∈ code, ins.Refers ρ

variable {ρ : Referents} {Γ : Variables}

@[simp] theorem bounds_nil : ρ.Bounds [] := by simp [Bounds]

@[simp] theorem bounds_cons {ins : Instr} {code : List Instr} :
    ρ.Bounds (ins :: code) ↔ ins.Refers ρ ∧ ρ.Bounds code :=
  List.forall_mem_cons

@[simp] theorem bounds_append {code code' : List Instr} :
    ρ.Bounds (code ++ code') ↔ ρ.Bounds code ∧ ρ.Bounds code' :=
  List.forall_mem_append

lemma Covers.symbol (hρ : ρ.Covers Γ) {v : Symbol} (hv : v.Declared Γ) : v.ty.Known ρ.records := by
  unfold Symbol.Declared at hv
  split at hv
  next name _ =>
    rw [List.lookup_eq_some_iff] at hv
    obtain ⟨before, after, hsplit, -⟩ := hv
    exact hρ.statics (name, v.ty) (by simp [hsplit])
  next => exact hρ.slots _ (List.mem_of_getElem? hv)
  next => exact hρ.slots _ (List.mem_of_getElem? hv)

lemma Covers.static (hρ : ρ.Covers Γ) {v : Symbol} (hv : v.Declared Γ) {name : String}
    (hs : v.storage = .static name) : (name, v.ty) ∈ ρ.statics := by
  unfold Symbol.Declared at hv
  rw [hs, hρ.statics_eq] at hv
  obtain ⟨before, after, hsplit, -⟩ := List.lookup_eq_some_iff.mp hv
  simp [hsplit]

/-- The records in the type of a part of a variable occur in the type of the variable. -/
theorem Covers.place (hρ : ρ.Covers Γ) {p : Place} (h : p.WellTyped Γ) : p.ty.Known ρ.records := by
  match p with
  | .root v => exact hρ.symbol h
  | .field base record name t =>
    obtain ⟨hbase, fields, hty, hlookup⟩ := h
    have hknown := hρ.place hbase
    rw [hty] at hknown
    obtain ⟨before, after, hsplit, -⟩ := List.lookup_eq_some_iff.mp hlookup
    exact Ty.eachFieldRecord_iff.mp hknown.2 (name, t) (by simp [hsplit])
  | .element base index low elem =>
    obtain ⟨hbase, -, -, len, hty⟩ := h
    have hknown := hρ.place hbase
    rw [hty] at hknown
    exact hknown

/-- The field of a well-typed place belongs to a record of the program. -/
lemma Covers.field (hρ : ρ.Covers Γ) {base : Place} {record name : String} {t : Ty}
    (h : (Place.field base record name t).WellTyped Γ) :
    ∃ r ∈ ρ.records, ∃ v ∈ r.fields, FieldRef.member record name t = .member r.name v.1 v.2 := by
  obtain ⟨hbase, fields, hty, hlookup⟩ := h
  have hknown := hρ.place hbase
  rw [hty] at hknown
  obtain ⟨before, after, hsplit, -⟩ := List.lookup_eq_some_iff.mp hlookup
  exact ⟨⟨record, fields⟩, hknown.1, (name, t), by simp [hsplit], rfl⟩

end Referents

namespace Emit

/-- Whatever `x` gives has the property. -/
def Gives {α : Type} (Q : α → Prop) (x : Gen α) : Prop := ∀ s a t, x s = .ok (a, t) → Q a

namespace Gives

variable {α β : Type} {P : α → Prop} {Q : β → Prop}

lemma pure {a : α} (h : P a) : Gives P (pure a : Gen α) := by
  intro s b t hb
  obtain ⟨rfl, -⟩ := Gen.pure_ok.mp hb
  exact h

lemma bind {x : Gen α} {f : α → Gen β} (hx : Gives P x) (hf : ∀ a, P a → Gives Q (f a)) :
    Gives Q (x >>= f) := by
  intro s b t h
  obtain ⟨a, u, ha, hb⟩ := Gen.bind_ok.mp h
  exact hf a (hx s a u ha) u b t hb

/-- A step whose value does not matter. -/
lemma after {x : Gen α} {f : α → Gen β} (hf : ∀ a, Gives Q (f a)) : Gives Q (x >>= f) :=
  bind (P := fun _ => True) (fun _ _ _ _ => trivial) fun a _ => hf a

lemma throw {e : EmitError} : Gives P (throw e : Gen α) := by
  intro s a t h
  exact (Gen.throw_ok.mp h).elim

lemma releasing {x : Gen α} (hx : Gives P x) : Gives P (releasing x) := by
  intro s a t h
  obtain ⟨u, ha, -⟩ := Gen.releasing_ok.mp h
  exact hx s a u ha

end Gives

section Expressions

variable {ρ : Referents} {Γ : Variables}

@[simp] theorem bounds_widen (target value : Ty) : ρ.Bounds (widen target value) := by
  unfold widen
  split_ifs <;> simp [Instr.Refers]

@[simp] theorem bounds_widenTo (kind : Kind) (value : Ty) : ρ.Bounds (widenTo kind value) := by
  unfold widenTo
  split_ifs <;> simp [Instr.Refers]

@[simp] theorem bounds_compare (r : Relation) (a b : Ty) (yes : Label) :
    ρ.Bounds (compare r a b yes) := by
  unfold compare
  split_ifs <;> simp [Instr.Refers]

@[simp] theorem bounds_rebase (low : Int32) : ρ.Bounds (rebase low) := by
  unfold rebase
  split_ifs <;> simp [Instr.Refers]

@[simp] theorem bounds_symbolAddress (v : Symbol) : ρ.Bounds (symbolAddress v) := by
  unfold symbolAddress
  split <;> simp [Instr.Refers]

@[simp] theorem bounds_wrap (t : Ty) : ρ.Bounds (wrap t) := by
  unfold wrap
  split <;> simp [Instr.Refers]

lemma bounds_loadSymbol (hρ : ρ.Covers Γ) {v : Symbol} (hv : v.Declared Γ) :
    ρ.Bounds (loadSymbol v v.ty) := by
  unfold loadSymbol
  split
  next name hs => simpa [Instr.Refers] using ⟨_, _, hρ.static hv hs, rfl⟩
  next => simp [Instr.Refers]
  next => simp [Instr.Refers]

lemma loadObject_gives (hρ : ρ.Covers Γ) {v : Symbol} (hv : v.Declared Γ) :
    Gives ρ.Bounds (loadObject v) := by
  unfold loadObject
  split
  next name hs => exact .pure (by simpa [Instr.Refers] using ⟨_, _, hρ.static hv hs, rfl⟩)
  next => exact .pure (by simp [Instr.Refers])
  next => exact .throw

lemma bounds_store (hρ : ρ.Covers Γ) {p : Place} (h : p.WellTyped Γ) :
    ρ.Bounds (store p.ty p) := by
  match p with
  | .root ⟨name, storage, t⟩ =>
    cases storage with
    | static field => simpa [store, Instr.Refers] using ⟨_, _, hρ.static h rfl, rfl⟩
    | slot n => simp [store, Instr.Refers]
    | cell n => simp [store, Instr.Refers]
  | .field base record name t =>
    have hput : (Instr.putField (.member record name t)).Refers ρ := hρ.field h
    simp [store, hput]
  | .element base index low elem => simp [store, Instr.Refers]

lemma loadVia_gives (hρ : ρ.Covers Γ) {walk : Gen (List Instr)} {p : Place} (h : p.WellTyped Γ)
    (hwalk : Gives ρ.Bounds walk) : Gives ρ.Bounds (loadVia walk p.ty p) := by
  cases p with
  | root v => exact .pure (bounds_loadSymbol hρ h)
  | field => exact hwalk
  | element => exact hwalk

lemma relation_gives {r : Relation} {tyA tyB : Ty} {a b : Gen (List Instr)}
    (ha : Gives ρ.Bounds a) (hb : Gives ρ.Bounds b) : Gives ρ.Bounds (relation r tyA tyB a b) :=
  .after fun _ => .after fun _ => .bind ha fun _ hA => .bind hb fun _ hB =>
    .pure (by simp [hA, hB, Instr.Refers])

lemma arithmetic_gives {op : BinOp} {ty tyA tyB : Ty} {a b : Gen (List Instr)}
    (ha : Gives ρ.Bounds a) (hb : Gives ρ.Bounds b) :
    Gives ρ.Bounds (arithmetic op ty tyA tyB a b) :=
  .bind ha fun _ hA => .bind hb fun _ hB => .pure (by simp [hA, hB, Instr.Refers])

/-- A cell is made for a scalar only, so no record is in the type of its element. -/
lemma passRef_gives {ty : Ty} {place : Place} {load : Gen (List Instr)}
    (h : Gives ρ.Bounds load) : Gives (fun r => ρ.Bounds r.1) (passRef ty place load) := by
  unfold passRef
  split_ifs with hscalar
  · exact .bind h fun _ hcode => .pure hcode
  · split
    · exact .pure (by simp [Instr.Refers])
    · have hknown : ty.Known ρ.records := Ty.eachRecord_of_scalar (by simpa using hscalar)
      have hcell : Gives (fun r => ρ.Bounds r.1) (intoCell ty load) :=
        .after fun _ => .bind h fun _ hcode => .pure (by simp [hcode, hknown, Instr.Refers])
      exact .bind hcell fun _ hcode => .pure hcode

lemma invocation_gives {callee : Signature} {count : Nat}
    {push : Gen (List Instr × List (Option Nat))} {back : List (Option Nat) → Gen (List Instr)}
    (hcallee : ρ.Callee callee) (hpush : Gives (fun r => ρ.Bounds r.1) push)
    (hback : ∀ cells, Gives ρ.Bounds (back cells)) :
    Gives ρ.Bounds (invocation callee count push back) := by
  have hcall : (Instr.invokeStatic (.ofSignature callee)).Refers ρ := ⟨callee, hcallee, rfl⟩
  unfold invocation
  split_ifs
  · exact .after fun _ => .releasing (.bind hpush fun _ hargs => .bind (hback _) fun _ hstore =>
      .pure (by simp [hargs, hstore, hcall]))
  · exact .releasing (.bind hpush fun _ hargs => .bind (hback _) fun _ hstore =>
      .pure (by simp [hargs, hstore, hcall]))

mutual

theorem expr_gives (hρ : ρ.Covers Γ) : {e : Expr} → (h : e.WellTyped Γ) →
    (hc : e.Calls ρ.Callee) → Gives ρ.Bounds (expr e)
  | .int _ _, _, _ => .pure (by simp [Instr.Refers])
  | .real _ _, _, _ => .pure (by simp [Instr.Refers])
  | .text _ _, _, _ => .pure (by simp [Instr.Refers])
  | .read _ place _, ⟨hplace, hty, _⟩, hc => by
    rw [expr, hty]
    exact loadVia_gives hρ hplace (path_gives hρ hplace hc)
  | .call _ callee args, ⟨_, hargs⟩, ⟨hcallee, hc⟩ => by
    rw [expr]
    exact invocation_gives hcallee (pushArgs_gives hρ hargs hc)
      fun cells => copyBack_gives hρ cells hargs hc
  | .unary _ .neg x, h, hc => by
    rw [expr]
    exact .bind (expr_gives hρ h.1 hc) fun _ hx => .pure (by simp [hx, Instr.Refers])
  | .unary _ .not x, h, hc => by
    rw [expr]
    exact .bind (expr_gives hρ h.1 hc) fun _ hx => .pure (by simp [hx, Instr.Refers])
  | .binary _ op a b, h, hc => by
    rw [expr]
    split
    · exact relation_gives (expr_gives hρ h.1 hc.1) (expr_gives hρ h.2.1 hc.2)
    · exact arithmetic_gives (expr_gives hρ h.1 hc.1) (expr_gives hρ h.2.1 hc.2)

theorem path_gives (hρ : ρ.Covers Γ) : {p : Place} → (h : p.WellTyped Γ) →
    (hc : p.Calls ρ.Callee) → Gives ρ.Bounds (path p)
  | .root v, h, _ => by
    rw [path]
    exact loadObject_gives hρ h
  | .field base record name ty, h, hc => by
    have hget : (Instr.getField (.member record name ty)).Refers ρ := hρ.field h
    rw [path]
    exact .bind (path_gives hρ h.1 hc) fun _ hbase => .pure (by simp [hbase, hget])
  | .element base index low elem, h, hc => by
    rw [path]
    exact .bind (path_gives hρ h.1 hc.1) fun _ hbase => .bind (expr_gives hρ h.2.1 hc.2)
      fun _ hindex => .pure (by simp [hbase, hindex, Instr.Refers])

theorem address_gives (hρ : ρ.Covers Γ) : {p : Place} → (h : p.WellTyped Γ) →
    (hc : p.Calls ρ.Callee) → Gives ρ.Bounds (address p)
  | .root v, _, _ => by
    rw [address]
    exact .pure (bounds_symbolAddress v)
  | .field base record name ty, h, hc => by
    rw [address]
    exact path_gives hρ h.1 hc
  | .element base index low elem, h, hc => by
    rw [address]
    exact .bind (path_gives hρ h.1 hc.1) fun _ hbase => .bind (expr_gives hρ h.2.1 hc.2)
      fun _ hindex => .pure (by simp [hbase, hindex])

theorem pushArgs_gives (hρ : ρ.Covers Γ) : {params : List Passing} → {args : List Arg} →
    (h : ArgsWellTyped Γ params args) → (hc : ArgsCalls ρ.Callee args) →
    Gives (fun r => ρ.Bounds r.1) (pushArgs params args)
  | [], [], _, _ => .pure (by simp)
  | p :: params, .value e :: args, ⟨_, he, _, hargs⟩, ⟨hce, hcargs⟩ => by
    rw [pushArgs]
    exact .bind (expr_gives hρ he hce) fun _ hcode => .bind (pushArgs_gives hρ hargs hcargs)
      fun _ hrest => .pure (by simp [hcode, hrest])
  | p :: params, .ref place ty :: args, ⟨_, hplace, hty, _, hargs⟩, ⟨hcplace, hcargs⟩ => by
    rw [pushArgs, hty]
    have hload := loadVia_gives hρ hplace (path_gives hρ hplace hcplace)
    exact .bind (passRef_gives hload) fun _ hcode => .bind (pushArgs_gives hρ hargs hcargs)
      fun _ hrest => .pure (by simp [hcode, hrest])

theorem copyBack_gives (hρ : ρ.Covers Γ) : {params : List Passing} → {args : List Arg} →
    (cells : List (Option Nat)) → (h : ArgsWellTyped Γ params args) →
    (hc : ArgsCalls ρ.Callee args) → Gives ρ.Bounds (copyBack cells args)
  | [], [], [], _, _ => .pure (by simp)
  | [], [], _ :: _, _, _ => by
    simp only [copyBack]
    exact .pure (by simp)
  | _ :: _, _ :: _, [], _, _ => .pure (by simp)
  | _ :: _, .value _ :: _, some _ :: cells, ⟨_, _, _, hargs⟩, ⟨_, hcargs⟩ => by
    rw [copyBack]
    · exact copyBack_gives hρ cells hargs hcargs
    · simp
  | _ :: _, .value _ :: _, none :: cells, ⟨_, _, _, hargs⟩, ⟨_, hcargs⟩ => by
    rw [copyBack]
    · exact copyBack_gives hρ cells hargs hcargs
    · simp
  | _ :: _, .ref _ _ :: _, none :: cells, ⟨_, _, _, _, hargs⟩, ⟨_, hcargs⟩ => by
    rw [copyBack]
    · exact copyBack_gives hρ cells hargs hcargs
    · simp
  | _ :: _, .ref place _ :: _, some _ :: cells, ⟨_, hplace, hty, _, hargs⟩, ⟨hcplace, hcargs⟩ => by
    have hstore := bounds_store hρ hplace
    rw [copyBack, hty]
    exact .bind (address_gives hρ hplace hcplace) fun _ haddress =>
      .bind (copyBack_gives hρ cells hargs hcargs) fun _ hrest =>
      .pure (by simp [outOfCell, haddress, hstore, hrest, Instr.Refers])

end

lemma call_gives (hρ : ρ.Covers Γ) {callee : Signature} {args : List Arg}
    (h : ArgsWellTyped Γ callee.params args) (hcallee : ρ.Callee callee)
    (hc : ArgsCalls ρ.Callee args) : Gives ρ.Bounds (call callee args) :=
  invocation_gives hcallee (pushArgs_gives hρ h hc) fun cells => copyBack_gives hρ cells h hc

lemma load_gives (hρ : ρ.Covers Γ) {d : Designator} (h : d.WellTyped Γ)
    (hc : d.place.Calls ρ.Callee) : Gives ρ.Bounds (load d) := by
  rw [load, h.ty_eq]
  exact loadVia_gives hρ h.place (path_gives hρ h.place hc)

/-- Storing into a place that is declared with its type. -/
lemma bounds_storeInto (hρ : ρ.Covers Γ) {d : Designator} (h : d.WellTyped Γ) :
    ρ.Bounds (store d.ty d.place) := by
  rw [h.ty_eq]
  exact bounds_store hρ h.place

lemma assign_gives (hρ : ρ.Covers Γ) {target : Designator} {value : Expr} (ht : target.WellTyped Γ)
    (hv : value.WellTyped Γ) (hct : target.place.Calls ρ.Callee) (hcv : value.Calls ρ.Callee) :
    Gives ρ.Bounds (assign target value) :=
  .bind (address_gives hρ ht.place hct) fun _ haddress => .bind (expr_gives hρ hv hcv) fun _ hvalue =>
    .pure (by simp [haddress, hvalue, bounds_storeInto hρ ht])

lemma stepCounter_gives (hρ : ρ.Covers Γ) {counter : Designator} {down : Bool}
    (h : counter.WellTyped Γ) (hc : counter.place.Calls ρ.Callee) :
    Gives ρ.Bounds (stepCounter counter down) :=
  .bind (address_gives hρ h.place hc) fun _ haddress => .bind (load_gives hρ h hc) fun _ hload =>
    .pure (by simp [haddress, hload, bounds_storeInto hρ h, Instr.Refers])

lemma readTarget_gives (hρ : ρ.Covers Γ) {d : Designator} (h : d.WellTyped Γ)
    (hc : d.place.Calls ρ.Callee) : Gives ρ.Bounds (readTarget d) := by
  have hstore := bounds_storeInto hρ h
  refine .bind (address_gives hρ h.place hc) fun _ haddress => .pure ?_
  split_ifs
  · simp [haddress, readChar, hstore, Instr.Refers]
  · simp [haddress, readValue, hstore, Instr.Refers]

lemma readTargets_gives (hρ : ρ.Covers Γ) {ds : List Designator} (h : ∀ d ∈ ds, d.WellTyped Γ)
    (hc : ∀ d ∈ ds, d.place.Calls ρ.Callee) : Gives ρ.Bounds (readTargets ds) := by
  induction ds with
  | nil => exact .pure (by simp)
  | cons d ds ih =>
    obtain ⟨hd, hds⟩ := List.forall_mem_cons.mp h
    obtain ⟨hcd, hcds⟩ := List.forall_mem_cons.mp hc
    exact .bind (readTarget_gives hρ hd hcd) fun _ hcode => .bind (ih hds hcds) fun _ hrest =>
      .pure (by simp [hcode, hrest])

lemma read_gives (hρ : ρ.Covers Γ) {line : Bool} {ds : List Designator}
    (h : ∀ d ∈ ds, d.WellTyped Γ) (hc : ∀ d ∈ ds, d.place.Calls ρ.Callee) :
    Gives ρ.Bounds (read line ds) := by
  refine .bind (readTargets_gives hρ h hc) fun _ hcode => .pure ?_
  split_ifs <;> simp [hcode, skipLine, Instr.Refers]

lemma fillObjects_gives (hρ : ρ.Covers Γ) {es : List Expr} (h : ∀ e ∈ es, e.WellTyped Γ)
    (hc : ∀ e ∈ es, e.Calls ρ.Callee) (n : Nat) : Gives ρ.Bounds (fillObjects n es) := by
  induction es generalizing n with
  | nil => exact .pure (by simp)
  | cons e es ih =>
    obtain ⟨he, hes⟩ := List.forall_mem_cons.mp h
    obtain ⟨hce, hces⟩ := List.forall_mem_cons.mp hc
    exact .bind (expr_gives hρ he hce) fun _ hcode => .bind (ih hes hces _) fun _ hrest =>
      .pure (by simp [hcode, hrest, Instr.Refers])

lemma writtenValues_calls {args : List WriteArg} (h : ∀ a ∈ args, ∀ e ∈ a.expr?, e.Calls ρ.Callee) :
    ∀ e ∈ writtenValues args, e.Calls ρ.Callee := by
  intro e he
  obtain ⟨a, ha, hae⟩ := List.mem_filterMap.mp he
  exact h a ha e hae

lemma write_gives (hρ : ρ.Covers Γ) {line : Bool} {args : List WriteArg}
    (h : ∀ e ∈ writtenValues args, e.WellTyped Γ)
    (hc : ∀ e ∈ writtenValues args, e.Calls ρ.Callee) : Gives ρ.Bounds (write line args) := by
  unfold write
  split_ifs
  · exact .pure (by simp [Instr.Refers])
  · exact .pure (by simp)
  · dsimp only
    rcases hvalues : writtenValues args with _ | ⟨e, es⟩
    · exact .pure (by simp [Instr.Refers])
    · rw [hvalues] at h hc
      exact .bind (fillObjects_gives hρ h hc 0) fun _ hcode =>
        .pure (by simp [hcode, Instr.Refers])

/-- The initial value of a variable is made of the records in its type. -/
lemma initial_gives {ty : Ty} (h : ty.Known ρ.records) : Gives ρ.Bounds (initial ty) := by
  induction ty using initial.induct with
  | case5 name fields =>
    simp only [initial]
    exact .pure (by simpa [Instr.Refers] using ⟨_, h.1, rfl⟩)
  | case6 low len elem href ih =>
    have helem : elem.Known ρ.records := h
    simp only [initial, href, if_true]
    refine .bind (P := ρ.Bounds) (.releasing ?_) fun _ hfill => .pure (by simp [Instr.Refers, helem, hfill])
    exact .after fun _ => .after fun _ => .after fun _ => .after fun _ => .bind (ih h) fun _ hcode =>
      .pure (by simp [hcode, Instr.Refers])
  | case7 low len elem href =>
    have helem : elem.Known ρ.records := h
    simp only [initial, href, if_false]
    exact .pure (by simp [Instr.Refers, helem])
  | _ =>
    simp only [initial]
    exact .pure (by simp [Instr.Refers])

lemma initFields_gives {r : RecordTy} (hr : r ∈ ρ.records) {fields : List (String × Ty)}
    (hfields : ∀ f ∈ fields, f ∈ r.fields ∧ f.2.Known ρ.records) :
    Gives ρ.Bounds (initFields r.name fields) := by
  induction fields with
  | nil => exact .pure (by simp)
  | cons field rest ih =>
    obtain ⟨⟨hmem, hknown⟩, hrest⟩ := List.forall_mem_cons.mp hfields
    have hput : (Instr.putField (.member r.name field.1 field.2)).Refers ρ :=
      ⟨r, hr, field, hmem, rfl⟩
    unfold initFields
    split_ifs
    · exact .bind (initial_gives hknown) fun _ hcode => .bind (ih hrest) fun _ hmore =>
        .pure (by simp [hcode, hmore, hput]; simp [Instr.Refers])
    · exact ih hrest

lemma initGlobals_gives {globals : List (String × Ty)}
    (h : ∀ v ∈ globals, v ∈ ρ.statics ∧ v.2.Known ρ.records) :
    Gives ρ.Bounds (initGlobals globals) := by
  induction globals with
  | nil => exact .pure (by simp)
  | cons global rest ih =>
    obtain ⟨⟨hmem, hknown⟩, hrest⟩ := List.forall_mem_cons.mp h
    have hput : (Instr.putStatic (.global global.1 global.2)).Refers ρ := ⟨global, hmem, rfl⟩
    exact .bind (initial_gives hknown) fun _ hcode => .bind (ih hrest) fun _ hmore =>
      .pure (by simp [hcode, hmore, hput])

lemma initLocals_gives {vars : List Local} (h : ∀ v ∈ vars, v.ty.Known ρ.records) :
    Gives ρ.Bounds (initLocals vars) := by
  induction vars with
  | nil => exact .pure (by simp)
  | cons v rest ih =>
    obtain ⟨hv, hrest⟩ := List.forall_mem_cons.mp h
    exact .bind (initial_gives hv) fun _ hcode => .bind (ih hrest) fun _ hmore =>
      .pure (by simp [hcode, hmore, Instr.Refers])

lemma bounds_leave (result : Option Local) : ρ.Bounds (leave result) := by
  cases result <;> simp [leave, Instr.Refers]

end Expressions

section Statements

variable {ρ : Referents} {Γ : Variables} {policy : CasePolicy}

/-- The operations emit code that refers to the referents only. -/
def BoundsOps (ρ : Referents) (ops : List Op) : Prop := ρ.Bounds (emitted ops)

@[simp] theorem boundsOps_nil : BoundsOps ρ [] := Referents.bounds_nil

@[simp] theorem boundsOps_enter {kind : String} {ops : List Op} :
    BoundsOps ρ (.enter kind :: ops) ↔ BoundsOps ρ ops := by
  rw [BoundsOps, emitted_cons_enter, BoundsOps]

@[simp] theorem boundsOps_asm {code : List Instr} : BoundsOps ρ (asm code) ↔ ρ.Bounds code := by
  rw [BoundsOps, emitted_asm]

@[simp] theorem boundsOps_append {xs ys : List Op} :
    BoundsOps ρ (xs ++ ys) ↔ BoundsOps ρ xs ∧ BoundsOps ρ ys := by
  rw [BoundsOps, emitted_append, Referents.bounds_append, BoundsOps, BoundsOps]

lemma entering_gives {kind : String} {x : Gen (List Op)} (h : Gives (BoundsOps ρ) x) :
    Gives (BoundsOps ρ) (entering kind x) :=
  .bind h fun _ hops => .pure (by simpa using hops)

lemma asm_gives {x : Gen (List Instr)} (h : Gives ρ.Bounds x) :
    Gives (BoundsOps ρ) (do return asm (← x)) :=
  .bind h fun _ hcode => .pure (by simpa using hcode)

mutual

theorem stmt_gives (hρ : ρ.Covers Γ) : {c : Stmt} → (h : c.WellTyped Γ) →
    (hc : c.Calls ρ.Callee) → Gives (BoundsOps ρ) (stmt policy c)
  | .empty, _, _ => entering_gives (.pure (by simp))
  | .compound body, h, hc => by
    rw [stmt]
    exact entering_gives (stmts_gives hρ h hc)
  | .assign target value, h, hc => by
    rw [stmt]
    exact entering_gives (asm_gives (assign_gives hρ h.1 h.2.1 hc.1 hc.2))
  | .ifThen cond yes no, ⟨hcond, hyes, hno⟩, hc => by
    rw [stmt]
    exact entering_gives (.after fun _ => .after fun _ =>
      .bind (expr_gives hρ hcond.wellTyped hc.1) fun _ hcode =>
      .bind (optional_gives hρ hno hc.2.2) fun _ hcodeNo =>
      .bind (stmt_gives hρ hyes hc.2.1) fun _ hcodeYes =>
      .pure (by simp [hcode, hcodeNo, hcodeYes, Instr.Refers]))
  | .caseOf selector branches otherwise, ⟨hselector, _, harms, hotherwise⟩, hc => by
    rw [stmt]
    refine entering_gives (.after fun _ => .after fun _ => .after fun _ =>
      .bind (expr_gives hρ hselector hc.1) fun _ hcode =>
      .bind (arms_gives hρ harms hc.2.1) fun _ hcodeArms =>
      .bind (optional_gives hρ hotherwise hc.2.2) fun _ hcodeDefault => .pure ?_)
    split_ifs <;> simp [hcode, hcodeArms, hcodeDefault, Instr.Refers]
  | .repeatUntil body cond, ⟨hbody, hcond⟩, hc => by
    rw [stmt]
    exact entering_gives (.after fun _ => .after fun _ =>
      .bind (stmts_gives hρ hbody hc.1) fun _ hcodeBody =>
      .bind (expr_gives hρ hcond.wellTyped hc.2) fun _ hcode =>
      .pure (by simp [hcode, hcodeBody, Instr.Refers]))
  | .whileDo cond body, ⟨hcond, hbody⟩, hc => by
    rw [stmt]
    exact entering_gives (.after fun _ => .after fun _ =>
      .bind (expr_gives hρ hcond.wellTyped hc.1) fun _ hcode =>
      .bind (stmt_gives hρ hbody hc.2) fun _ hcodeBody =>
      .pure (by simp [hcode, hcodeBody, Instr.Refers]))
  | .forDo counter first last down body, ⟨hcounter, _, hfirst, _, hlast, _, hbody, _⟩,
      ⟨hcCounter, hcFirst, hcLast, hcBody⟩ => by
    rw [stmt]
    exact entering_gives (.after fun _ => .after fun _ =>
      .bind (assign_gives hρ hcounter hfirst hcCounter hcFirst) fun _ hcodeFirst =>
      .bind (expr_gives hρ hlast hcLast) fun _ hcodeLast =>
      .bind (load_gives hρ hcounter hcCounter) fun _ hcodeCounter =>
      .bind (stmt_gives hρ hbody hcBody) fun _ hcodeBody =>
      .bind (stepCounter_gives hρ hcounter hcCounter) fun _ hcodeStep =>
      .pure (by simp [hcodeFirst, hcodeLast, hcodeCounter, hcodeBody, hcodeStep, Instr.Refers]))
  | .procedureCall callee args, h, hc => by
    rw [stmt]
    exact entering_gives (asm_gives (call_gives hρ h.2 hc.1 hc.2))
  | .functionCall callee args, h, hc => by
    rw [stmt]
    exact entering_gives (.bind (call_gives hρ h.2 hc.1 hc.2) fun _ hcode =>
      .pure (by simp [hcode, Instr.Refers]))
  | .write line args, h, hc => by
    rw [stmt]
    exact entering_gives (asm_gives (write_gives hρ
      (fun e he => (writtenValues_wellTyped h e he).1) (writtenValues_calls hc)))
  | .read line targets, h, hc => by
    rw [stmt]
    exact entering_gives (asm_gives (read_gives hρ (fun d hd => (h d hd).1) hc))

theorem stmts_gives (hρ : ρ.Covers Γ) : {cs : List Stmt} → (h : StmtsWellTyped Γ cs) →
    (hc : StmtsCalls ρ.Callee cs) → Gives (BoundsOps ρ) (stmts policy cs)
  | [], _, _ => .pure (by simp)
  | c :: cs, ⟨h, hs⟩, ⟨hc, hcs⟩ => by
    rw [stmts]
    exact .bind (stmt_gives hρ h hc) fun _ hcode => .bind (stmts_gives hρ hs hcs) fun _ hrest =>
      .pure (by simp [hcode, hrest])

theorem optional_gives (hρ : ρ.Covers Γ) : {c : Option Stmt} → (h : OptionalWellTyped Γ c) →
    (hc : OptionalCalls ρ.Callee c) → Gives (BoundsOps ρ) (optional policy c)
  | none, _, _ => .pure (by simp)
  | some c, h, hc => by
    rw [optional]
    exact stmt_gives hρ h hc

theorem arms_gives (hρ : ρ.Covers Γ) : {branches : List (List Int32 × Stmt)} → {done : Label} →
    {labels : List Label} → (h : ArmsWellTyped Γ branches) → (hc : ArmsCalls ρ.Callee branches) →
    Gives (BoundsOps ρ) (arms policy done labels branches)
  | [], _, labels, _, _ => by
    cases labels <;> exact .pure (by simp)
  | branch :: rest, done, [], _, _ => .pure (by simp)
  | (values, c) :: rest, done, l :: labels, ⟨_, h, hs⟩, ⟨hc, hcs⟩ => by
    rw [arms]
    exact .bind (stmt_gives hρ h hc) fun _ hcode => .bind (arms_gives hρ hs hcs) fun _ hrest =>
      .pure (by simp [hcode, hrest, Instr.Refers])

end

end Statements
end Emit
end PascalJvm
