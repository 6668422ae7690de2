import Mathlib.Tactic
import PascalJvm.Proofs.Invocation

/-!
# Slots in use

The machine has more slots than the meaning has variables: cells stand in slots from the supply,
which start after the variables (`Agree`). Code that computes something changes no slot that is in
use (`spared`), except for those of scalar variables that are passed by reference
(`Typed.argsLent`).
-/
namespace PascalJvm

open Jvm

namespace Typed

/-- The slot of a scalar variable. -/
def Place.scalarSlot : Place → List Nat
  | .root ⟨_, .slot n, ty⟩ => if ty.isAggregate then [] else [n]
  | _ => []

mutual

/-- The slots of the scalar variables that are passed by reference, in calls at any depth. -/
def Expr.lent : Expr → List Nat
  | .read _ place _ => place.lent
  | .call _ _ args => argsLent args
  | .unary _ _ x => x.lent
  | .binary _ _ a b => a.lent ++ b.lent
  | .int _ _ | .real _ _ | .text _ _ => []

def Place.lent : Place → List Nat
  | .root _ => []
  | .field base _ _ _ => base.lent
  | .element base index _ _ => base.lent ++ index.lent

def argsLent : List Arg → List Nat
  | [] => []
  | .value e :: args => e.lent ++ argsLent args
  | .ref place _ :: args => place.scalarSlot ++ (place.lent ++ argsLent args)

end

section

variable {Γ : Variables} {n : Nat}

lemma Place.scalarSlot_lt {p : Place} (h : p.WellTyped Γ) (hn : n ∈ p.scalarSlot) :
    n < Γ.slots.length := by
  unfold Place.scalarSlot at hn
  split at hn
  next name m ty =>
    split_ifs at hn
    · cases hn
    · rw [List.mem_singleton.mp hn]
      exact (List.getElem?_eq_some_iff.mp h).1
  next => cases hn

mutual

theorem Expr.lent_lt : {e : Expr} → (h : e.WellTyped Γ) → (hn : n ∈ e.lent) → n < Γ.slots.length
  | .read .., h, hn => Place.lent_lt h.1 hn
  | .call .., h, hn => argsLent_lt h.2 hn
  | .unary _ .neg _, h, hn => Expr.lent_lt h.1 hn
  | .unary _ .not _, h, hn => Expr.lent_lt h.1 hn
  | .binary .., h, hn => (List.mem_append.mp hn).elim (Expr.lent_lt h.1) (Expr.lent_lt h.2.1)

theorem Place.lent_lt : {p : Place} → (h : p.WellTyped Γ) → (hn : n ∈ p.lent) →
    n < Γ.slots.length
  | .field .., h, hn => Place.lent_lt h.1 hn
  | .element .., h, hn =>
    (List.mem_append.mp hn).elim (Place.lent_lt h.1) (Expr.lent_lt h.2.1)

theorem argsLent_lt : {params : List Passing} → {args : List Arg} →
    (h : ArgsWellTyped Γ params args) → (hn : n ∈ argsLent args) → n < Γ.slots.length
  | [], [], _, hn => by cases hn
  | _ :: _, .value e :: args, h, hn =>
    (List.mem_append.mp hn).elim (Expr.lent_lt h.2.1) (argsLent_lt h.2.2.2)
  | _ :: _, .ref place _ :: args, h, hn =>
    (List.mem_append.mp hn).elim (Place.scalarSlot_lt h.2.1) fun hn =>
      (List.mem_append.mp hn).elim (Place.lent_lt h.2.1) (argsLent_lt h.2.2.2.2)

end

end

end Typed

namespace Run

open Typed

/-- The stores differ in slots from `n` on only. -/
structure Agree (n : Nat) (σ μ : Store) : Prop where
  statics : μ.statics = σ.statics
  slots {m : Nat} (hm : m < n) : μ.slots m = σ.slots m
  heap : μ.heap = σ.heap

def Store.setSlot (σ : Store) (n : Nat) (v : Value) : Store :=
  { σ with slots := Function.update σ.slots n (some v) }

/-- The store with the slots from `n` on of another one. -/
def Store.over (σ : Store) (n : Nat) (μ : Store) : Store :=
  { σ with slots := fun m => if m < n then σ.slots m else μ.slots m }

section

variable {Γ : Variables} {n : Nat} {K : Set Nat} {σ μ : Store} {host : Host}

lemma agree_over (σ : Store) (n : Nat) (μ : Store) : Agree n σ (σ.over n μ) :=
  ⟨rfl, fun hm => if_pos hm, rfl⟩

namespace Agree

lemma refl (n : Nat) (σ : Store) : Agree n σ σ := ⟨rfl, fun _ => rfl, rfl⟩

lemma put (h : Agree n σ μ) (a : Nat) (o : Object) : Agree n (σ.put a o) (μ.put a o) :=
  ⟨h.statics, h.slots, by rw [Store.put, Store.put, h.heap]⟩

lemma setSlot (h : Agree n σ μ) {m : Nat} (hm : n ≤ m) (v : Value) : Agree n σ (μ.setSlot m v) :=
  ⟨h.statics, fun hj => (Function.update_of_ne (by omega) _ _).trans (h.slots hj), h.heap⟩

lemma wellTyped (h : Agree Γ.slots.length σ μ) (hσ : σ.WellTyped Γ.statics Γ.slots) :
    μ.WellTyped Γ.statics Γ.slots where
  statics hname := by
    rw [h.statics, h.heap]
    exact hσ.statics hname
  slots hn := by
    rw [h.slots (List.getElem?_eq_some_iff.mp hn).1, h.heap]
    exact hσ.slots hn

lemma read (h : Agree n σ μ) {loc : Location} (hloc : loc.Clear n K) :
    μ.read loc = σ.read loc := by
  cases loc with
  | static name => rw [Store.read, Store.read, h.statics]
  | slot m => rw [Store.read, Store.read, h.slots hloc]
  | field a name => rw [Store.read, Store.read, h.heap]
  | element a i => rw [Store.read, Store.read, h.heap]

lemma holds (h : Agree n σ μ) {loc : Location} (hloc : loc.Clear n K) {t : Ty}
    (hholds : loc.Holds σ t) : loc.Holds μ t := by
  cases loc with
  | static name => simpa only [Location.Holds, h.statics, h.heap] using hholds
  | slot m => simpa only [Location.Holds, h.slots hloc, h.heap] using hholds
  | field a name => simpa only [Location.Holds, h.heap] using hholds
  | element a i => simpa only [Location.Holds, h.heap] using hholds

lemma write (h : Agree n σ μ) {loc : Location} (hloc : loc.Clear n K) (k : Kind) (v : Value) :
    μ.write k v loc = do return (← σ.write k v loc).over n μ := by
  obtain ⟨statics, slots, heap⟩ := μ
  obtain ⟨rfl, hslots, rfl⟩ := h
  have hover : slots = fun m => if m < n then σ.slots m else slots m := by
    funext m
    split_ifs with hm
    · exact hslots hm
    · rfl
  cases loc with
  | static name => exact congrArg (fun slots => Except.ok (⟨_, slots, _⟩ : Store)) hover
  | slot m =>
    refine congrArg (fun slots => Except.ok (⟨_, slots, _⟩ : Store)) (funext fun j => ?_)
    by_cases hj : j = m
    · subst hj
      simp only [Function.update_self]
      exact (if_pos hloc).symm
    · simp only [Function.update_of_ne hj]
      exact congrFun hover j
  | field a name =>
    simp only [Store.write]
    split
    · exact congrArg (fun slots => Except.ok (⟨_, slots, _⟩ : Store)) hover
    · rfl
  | element a i =>
    simp only [Store.write]
    split
    · split_ifs
      · exact congrArg (fun slots => Except.ok (⟨_, slots, _⟩ : Store)) hover
      · rfl
    · rfl

end Agree

lemma Agree.fetch_root (h : Agree Γ.slots.length σ μ) {s : Symbol} (hs : s.Declared Γ) :
    fetch host μ (.root s) = fetch host σ (.root s) := by
  have hread : ∀ loc : Location, loc.Clear Γ.slots.length ∅ → μ.read loc = σ.read loc :=
    fun _ => h.read
  obtain ⟨name, storage, ty⟩ := s
  cases storage with
  | static name => exact hread (.static name) trivial
  | slot m => exact hread (.slot m) (List.getElem?_eq_some_iff.mp hs).1
  | cell m =>
    have helement : ∀ (a : Nat) (i : Int), μ.read (.element a i) = σ.read (.element a i) :=
      fun a i => hread (.element a i) (Set.notMem_empty a)
    simp only [fetch, locate, bind_assoc, pure_bind, helement,
      hread (.slot m) (List.getElem?_eq_some_iff.mp hs).1]

lemma Agree.locate_root (h : Agree Γ.slots.length σ μ) {s : Symbol} (hs : s.Declared Γ) :
    locate host μ (.root s) = locate host σ (.root s) := by
  obtain ⟨name, storage, ty⟩ := s
  cases storage with
  | static name => rfl
  | slot m => rfl
  | cell m =>
    have hm : m < Γ.slots.length := (List.getElem?_eq_some_iff.mp hs).1
    have hread : μ.read (.slot m) = σ.read (.slot m) := h.read (K := ∅) hm
    simp only [locate, hread]

end

/-- The slots before `n` that are not lent. -/
def spared (n : Nat) (lent : List Nat) : Set Nat := {m | m < n ∧ m ∉ lent}

lemma spared_mono {n n' : Nat} {lent lent' : List Nat} (hn : n ≤ n') (hlent : lent' ⊆ lent) :
    spared n lent ⊆ spared n' lent' :=
  fun _ hm => ⟨hm.1.trans_le hn, fun hmem => hm.2 (hlent hmem)⟩

/-- Slots of the supply are not lent. -/
lemma mem_spared {k m n : Nat} {lent : List Nat} (hlent : ∀ j ∈ lent, j < k) (hk : k ≤ m)
    (hm : m < n) : m ∈ spared n lent :=
  ⟨hm, fun hmem => ((hlent m hmem).trans_le hk).ne rfl⟩

/-- No instruction of the block stores into a slot. -/
def Quiet (block : List Instr) : Prop := ∀ ins ∈ block, ∀ k n, ins ≠ .store k n

lemma Quiet.spares {block : List Instr} (h : Quiet block) (kept : Set Nat) :
    ∀ ins ∈ block, Instr.Spares kept ins := by
  intro ins hins
  cases ins with
  | store k n => exact absurd rfl (h _ hins k n)
  | _ => trivial

section

variable (a b : Ty) (k : Kind) (low : Int32) (s : Symbol)

lemma quiet_widen : Quiet (Emit.widen a b) := by
  unfold Emit.widen
  split_ifs <;> simp [Quiet]

lemma quiet_widenTo : Quiet (Emit.widenTo k b) := by
  unfold Emit.widenTo
  split_ifs <;> simp [Quiet]

lemma quiet_rebase : Quiet (Emit.rebase low) := by
  unfold Emit.rebase
  split_ifs <;> simp [Quiet]

lemma quiet_loadSymbol : Quiet (Emit.loadSymbol s a) := by
  unfold Emit.loadSymbol
  split <;> simp [Quiet]

lemma quiet_symbolAddress : Quiet (Emit.symbolAddress s) := by
  unfold Emit.symbolAddress
  split <;> simp [Quiet]

end

namespace World

variable (w : World)

/-- The code leaves on any stack what stands for the result, and the store that the computation
leaves. It changes no slot before `n` besides those of `lent`. -/
def Leaves (Γ : Variables) (n : Nat) (lent : List Nat) {α : Type} (code : List Instr)
    (x : Store → Eval (α × Store)) (words : α → List Value) : Prop :=
  ∀ ⦃K : Set Nat⦄ ⦃σ μ : Store⦄, σ.Sound Γ.statics Γ.slots K → Agree Γ.slots.length σ μ → ∀ st,
    w.Runs (spared n lent) code ⟨st, μ⟩ (x σ) fun r s' =>
      s'.stack = words r.1 ++ st ∧ Agree Γ.slots.length r.2 s'.store

/-- The same of generated code. The slots of the supply come after those of the variables, and
those before them are in use. -/
def Computes (Γ : Variables) (lent : List Nat) {α : Type} (gen : Emit.Gen (List Instr))
    (x : Store → Eval (α × Store)) (words : α → List Value) : Prop :=
  ∀ ⦃s code t⦄, gen s = .ok (code, t) → Γ.slots.length ≤ s.slot →
    w.Leaves Γ s.slot lent code x words

end World

namespace World

variable {w : World} {Γ : Variables} {K : Set Nat} {σ μ : Store}

lemma Leaves.mono {n : Nat} {lent lent' : List Nat} {α : Type} {code : List Instr}
    {x : Store → Eval (α × Store)} {words : α → List Value} (h : w.Leaves Γ n lent code x words)
    (hlent : lent ⊆ lent') : w.Leaves Γ n lent' code x words :=
  fun _ _ _ hσ hagree st => (h hσ hagree st).mono (spared_mono le_rfl hlent)

end World

end Run
end PascalJvm
