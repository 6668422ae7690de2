import Mathlib.Tactic
import PascalJvm.Proofs.NestedCalls

/-!
# Where an argument is copied from and back to

A scalar variable that is passed by reference is copied into a cell before the call and back from
it after the call. It is found anew each time, so the expressions of its indices are evaluated both
times. References never change while a body runs, so where a place is depends on the values of its
indices alone (`Store.designated`): the value is copied back to where it came from if the indices
have the same values again.
-/
namespace PascalJvm

namespace Typed

/-- The expressions of the indices of a place, the last one first. -/
def Place.indices : Place → List Expr
  | .root _ => []
  | .field base _ _ _ => base.indices
  | .element base index _ _ => index :: base.indices

/-- The last index of a place, if that is element `i` of its array. -/
def Place.lastIndex? (i : Int) : Place → Option (Expr × Int32)
  | .element _ index low _ => some (index, .ofInt (i + low.toInt))
  | _ => none

/-- The argument is passed as it is: a value, an object, or a variable in a cell of its own. -/
def Arg.asItIs : Arg → Bool
  | .value _ => true
  | .ref place t => t.isAggregate || (Emit.ownCell? place).isSome

end Typed

namespace Run

open Jvm Typed

/-- How a place was found: the expressions that were evaluated for its indices with their values,
the last one first, and where it is. -/
structure Visit where
  indices : List (Expr × Int32)
  location : Location

namespace World

variable (w : World)

/-- A place is found as by `position`, and it is said how. -/
def visit : Place → Store → Eval (Visit × Store)
  | .root s, σ => do return (⟨[], ← locate w.toHost σ (.root s)⟩, σ)
  | .field base _ name _, σ => do
      let (u, σ) ← visit base σ
      let record ← asRef (← σ.read u.location)
      return (⟨u.indices, .field record name⟩, σ)
  | .element base index low _, σ => do
      let (u, σ) ← visit base σ
      let array ← asRef (← σ.read u.location)
      let (v, σ) ← w.value index σ
      let i ← asInt v
      return (⟨(index, i) :: u.indices, .element array (i.toInt - low.toInt)⟩, σ)

/-- A variable is passed by reference. If it is copied into a new cell, it is said from where. -/
def lendFrom (t : Ty) (place : Place) (σ : Store) : Eval (Passed × Option Visit × Store) :=
  if t.isAggregate || (Emit.ownCell? place).isSome then do
    let (x, σ) ← w.lend t place (w.fetch place) σ
    return (x, none, σ)
  else do
    let a ← w.room σ.heap
    let (u, σ) ← w.visit place (σ.put a (.array [w.blank t]))
    let v ← σ.read u.location
    return (.cell a v, some u, ← σ.write (.ofTy t) v (.element a 0))

/-- What the cell holds is stored at a place. -/
def storeTo (place : Place) (cell : Nat) (t : Ty) (σ : Store) : Eval (Visit × Store) := do
  let (u, σ) ← w.visit place σ
  let v ← σ.read (.element cell 0)
  return (u, ← σ.write (.ofTy t) v u.location)

/-- The arguments are passed, and for each it is said from where it was copied. -/
def copyIn : List Passing → List Arg → Store → Eval (List Passed × List (Option Visit) × Store)
  | p :: params, .value e :: args, σ => do
      let (x, σ) ← w.give p.ty (w.value e) σ
      let (rest, ins, σ) ← copyIn params args σ
      return (x :: rest, none :: ins, σ)
  | p :: params, .ref place _ :: args, σ => do
      let (x, u, σ) ← w.lendFrom p.ty place σ
      let (rest, ins, σ) ← copyIn params args σ
      return (x :: rest, u :: ins, σ)
  | _, _, σ => .ok ([], [], σ)

/-- The cells are stored back, and for each argument it is said to where. -/
def copyBack : List Passed → List Arg → Store → Eval (List (Option Visit) × Store)
  | .cell a _ :: passed, .ref place t :: args, σ => do
      let (u, σ) ← w.storeTo place a t σ
      let (outs, σ) ← copyBack passed args σ
      return (some u :: outs, σ)
  | _ :: passed, _ :: args, σ => do
      let (outs, σ) ← copyBack passed args σ
      return (none :: outs, σ)
  | _, _, σ => .ok ([], σ)

/-- A call and its result, and from where and to where each argument was copied. -/
def trace (callee : Signature) (args : List Arg) (σ : Store) :
    Eval (Option Value × List (Option Visit) × List (Option Visit) × Store) := do
  let (passed, ins, σ) ← w.copyIn callee.params args σ
  let (r, g) ← w.call (.ofSignature callee) (passed.map Passed.operand) σ.shared
  let (outs, σ) ← w.copyBack passed args (σ.resume g)
  return (r, ins, outs, σ)

variable {w}

lemma position_eq : (place : Place) → (σ : Store) →
    w.position place σ = (do let (u, σ) ← w.visit place σ; return (u.location, σ))
  | .root s, σ => by simp only [World.position, visit, bind_assoc, pure_bind]
  | .field base record name t, σ => by
    simp only [World.position, visit, reading, position_eq base, bind_assoc, pure_bind]
  | .element base index low t, σ => by
    simp only [World.position, visit, reading, position_eq base, bind_assoc, pure_bind]

lemma lend_eq (t : Ty) (place : Place) (σ : Store) : w.lend t place (w.fetch place) σ =
    (do let (x, _, σ) ← w.lendFrom t place σ; return (x, σ)) := by
  unfold lendFrom
  split_ifs with h
  · simp only [bind_assoc, pure_bind, Prod.mk.eta, bind_pure]
  · simp only [Bool.or_eq_true, not_or, Bool.not_eq_true, Option.isSome_eq_false_iff,
      Option.isNone_iff_eq_none] at h
    simp only [World.lend, h.1, h.2, World.fetch, reading, position_eq, bind_assoc, pure_bind,
      Bool.false_eq_true, if_false]

lemma restore_eq (place : Place) (cell : Nat) (t : Ty) (σ : Store) :
    restore (w.position place) cell t σ = (do let (_, σ) ← w.storeTo place cell t σ; return σ) := by
  simp only [restore, storeTo, position_eq, bind_assoc, pure_bind, bind_pure]

lemma passAll_eq : (params : List Passing) → (args : List Arg) → (σ : Store) →
    w.passAll params args σ = (do let (x, _, σ) ← w.copyIn params args σ; return (x, σ))
  | p :: params, .value e :: args, σ => by
    simp only [World.passAll, copyIn, passAll_eq params args, bind_assoc, pure_bind]
  | p :: params, .ref place t :: args, σ => by
    have hlend := lend_eq (w := w) p.ty place σ
    rw [World.fetch] at hlend
    simp only [World.passAll, copyIn, hlend, passAll_eq params args, bind_assoc, pure_bind]
  | [], args, σ => by simp [World.passAll, copyIn]
  | p :: params, [], σ => by simp [World.passAll, copyIn]

lemma storeBack_eq : (passed : List Passed) → (args : List Arg) → (σ : Store) →
    w.storeBack passed args σ = (do let (_, σ) ← w.copyBack passed args σ; return σ)
  | .cell a v :: passed, .ref place t :: args, σ => by
    have hrestore := restore_eq (w := w) place a t σ
    simp only [World.storeBack, copyBack, hrestore, storeBack_eq passed args, bind_assoc, pure_bind]
  | .cell a v :: passed, .value e :: args, σ => by
    simp only [World.storeBack, copyBack, storeBack_eq passed args, bind_assoc, pure_bind]
  | .direct v :: passed, a :: args, σ => by
    simp only [World.storeBack, copyBack, storeBack_eq passed args, bind_assoc, pure_bind]
  | [], args, σ => by simp [World.storeBack, copyBack]
  | x :: passed, [], σ => by simp [World.storeBack, copyBack]

/-- The trace is one of the call as it is performed. -/
lemma perform_eq (callee : Signature) (args : List Arg) (σ : Store) : w.perform callee args σ =
    (do let (r, _, _, σ) ← w.trace callee args σ; return (r, σ)) := by
  simp only [World.perform, World.invoke, trace, passAll_eq, storeBack_eq, bind_assoc, pure_bind]

end World

/-- Where a place is if its indices have these values, the last one first. -/
def Store.designated (host : Host) (σ : Store) : Place → List Int32 → Eval Location
  | .root s, _ => locate host σ (.root s)
  | .field base _ name _, is => do
      return .field (← asRef (← σ.read (← designated host σ base is))) name
  | .element base _ low _, i :: is => do
      return .element (← asRef (← σ.read (← designated host σ base is))) (i.toInt - low.toInt)
  | .element .., [] => .error .stuck

/-- References that are not kept in `K` stay what they are. -/
def Anchored (Γ : Variables) (K : Set Nat) (σ τ : Store) : Prop :=
  ∀ loc a, loc.Clear Γ.slots.length K → σ.read loc = .ok (.ref a) → τ.read loc = .ok (.ref a)

section

variable {w : World} {Γ : Variables} {K : Set Nat} {σ τ υ : Store} {host : Host}

lemma Store.Alike.anchored (h : σ.Alike τ) (K : Set Nat) : Anchored Γ K σ τ :=
  fun _ _ _ => h.read_ref

/-- A hidden object may become anything. -/
lemma anchored_put {a : Nat} (ha : a ∈ K) (o : Object) : Anchored Γ K σ (σ.put a o) := by
  intro loc b hloc hread
  have hheap : ∀ {c}, c ∉ K → (σ.put a o).heap c = σ.heap c := fun hc =>
    σ.heap_put_of_ne o fun hca => hc (hca ▸ ha)
  cases loc with
  | static name | slot n => exact hread
  | field c name | element c i =>
    simp only [Store.read, hheap hloc] at hread ⊢
    exact hread

lemma eq_ref_of_asRef {v : Value} {a : Nat} (h : asRef v = .ok a) : v = .ref a := by
  cases v <;> cases h
  rfl

/-- A place is a variable of the body, or part of an object that can be reached. -/
lemma designated_clear (hσ : σ.Sound Γ.statics Γ.slots K) : {place : Place} → {is : List Int32} →
    {loc : Location} → (hplace : place.WellTyped Γ) →
    (h : σ.designated host place is = .ok loc) → loc.Clear Γ.slots.length K
  | .root s, is, loc, hplace, h => root_clear hσ hplace h
  | .field base record name t, is, loc, hplace, h => by
    simp only [Store.designated, bind_eq_ok, pure_eq_ok] at h
    obtain ⟨loc', hbase, v, hread, a, ha, rfl⟩ := h
    rw [eq_ref_of_asRef ha] at hread
    exact (read_clear hσ (designated_clear hσ hplace.1 hbase) hread).1
  | .element base index low t, i :: is, loc, hplace, h => by
    simp only [Store.designated, bind_eq_ok, pure_eq_ok] at h
    obtain ⟨loc', hbase, v, hread, a, ha, rfl⟩ := h
    rw [eq_ref_of_asRef ha] at hread
    exact (read_clear hσ (designated_clear hσ hplace.1 hbase) hread).1
  | .element .., [], loc, _, h => by cases h

/-- A place stays where it is as long as its indices have the same values. -/
lemma Anchored.designated (hanchored : Anchored Γ K σ τ) (hσ : σ.Sound Γ.statics Γ.slots K) :
    {place : Place} → {is : List Int32} → {loc : Location} → (hplace : place.WellTyped Γ) →
    (h : σ.designated host place is = .ok loc) → τ.designated host place is = .ok loc
  | .root ⟨name, .static _, t⟩, is, loc, _, h => h
  | .root ⟨name, .slot _, t⟩, is, loc, _, h => h
  | .root ⟨name, .cell n, t⟩, is, loc, hplace, h => by
    simp only [Store.designated, locate, bind_eq_ok, pure_eq_ok] at h ⊢
    obtain ⟨v, hread, a, ha, rfl⟩ := h
    rw [eq_ref_of_asRef ha] at hread
    have hn : n < Γ.slots.length := (List.getElem?_eq_some_iff.mp hplace).1
    exact ⟨_, hanchored _ _ hn hread, a, rfl, rfl⟩
  | .field base record name t, is, loc, hplace, h => by
    simp only [Store.designated, bind_eq_ok, pure_eq_ok] at h ⊢
    obtain ⟨loc', hbase, v, hread, a, ha, rfl⟩ := h
    rw [eq_ref_of_asRef ha] at hread
    exact ⟨loc', hanchored.designated hσ hplace.1 hbase, _,
      hanchored _ _ (designated_clear hσ hplace.1 hbase) hread, a, rfl, rfl⟩
  | .element base index low t, i :: is, loc, hplace, h => by
    simp only [Store.designated, bind_eq_ok, pure_eq_ok] at h ⊢
    obtain ⟨loc', hbase, v, hread, a, ha, rfl⟩ := h
    rw [eq_ref_of_asRef ha] at hread
    exact ⟨loc', hanchored.designated hσ hplace.1 hbase, _,
      hanchored _ _ (designated_clear hσ hplace.1 hbase) hread, a, rfl, rfl⟩
  | .element .., [], loc, _, h => by cases h

end

namespace Visit

/-- A place was found by evaluating each of its indices once, and it is still where it was. -/
structure Of (host : Host) (place : Place) (σ : Store) (u : Visit) : Prop where
  indices : u.indices.map Prod.fst = place.indices
  located : σ.designated host place (u.indices.map Prod.snd) = .ok u.location

/-- A place was found twice. It was at the same location if the indices had the same values both
times, and an element of an array only if its index had. -/
structure Again (place : Place) (u v : Visit) : Prop where
  first : u.indices.map Prod.fst = place.indices
  second : v.indices.map Prod.fst = place.indices
  same (h : u.indices = v.indices) : u.location = v.location
  element {a : Nat} {i : Int} (hu : u.location = .element a i) (hv : v.location = .element a i) :
    u.indices.head? = v.indices.head?

end Visit

/-- The arguments that were copied into new cells are still where they were copied from. -/
inductive CopiedIn (host : Host) (σ : Store) :
    List Arg → List Passed → List (Option Visit) → Prop
  | nil : CopiedIn host σ [] [] []
  | direct {a : Arg} {x : Value} {args : List Arg} {passed : List Passed}
      {ins : List (Option Visit)} (ha : a.asItIs = true) (h : CopiedIn host σ args passed ins) :
      CopiedIn host σ (a :: args) (.direct x :: passed) (none :: ins)
  | cell {place : Place} {t : Ty} {a : Nat} {x : Value} {u : Visit} {args : List Arg}
      {passed : List Passed} {ins : List (Option Visit)} (ha : (Arg.ref place t).asItIs = false)
      (hu : u.Of host place σ) (h : CopiedIn host σ args passed ins) :
      CopiedIn host σ (.ref place t :: args) (.cell a x :: passed) (some u :: ins)

/-- The arguments that are not passed as they are were copied in and back. -/
inductive CopiedBack : List Arg → List (Option Visit) → List (Option Visit) → Prop
  | nil : CopiedBack [] [] []
  | direct {a : Arg} {args : List Arg} {ins outs : List (Option Visit)} (ha : a.asItIs = true)
      (h : CopiedBack args ins outs) : CopiedBack (a :: args) (none :: ins) (none :: outs)
  | cell {place : Place} {t : Ty} {u v : Visit} {args : List Arg} {ins outs : List (Option Visit)}
      (ha : (Arg.ref place t).asItIs = false) (hv : u.Again place v)
      (h : CopiedBack args ins outs) :
      CopiedBack (.ref place t :: args) (some u :: ins) (some v :: outs)

section

variable {w : World} {Γ : Variables} {K : Set Nat} {σ τ υ : Store} {host : Host} {place : Place}
  {u v : Visit}

lemma Visit.Of.anchored (h : u.Of host place σ) (hσ : σ.Sound Γ.statics Γ.slots K)
    (hplace : place.WellTyped Γ) (hanchored : Anchored Γ K σ τ) : u.Of host place τ :=
  ⟨h.indices, hanchored.designated hσ hplace h.located⟩

lemma Visit.Of.head_eq (h : u.Of host place σ) {a : Nat} {i : Int}
    (hloc : u.location = .element a i) : u.indices.head? = place.lastIndex? i := by
  obtain ⟨is, loc⟩ := u
  obtain rfl : loc = .element a i := hloc
  obtain ⟨hindices, hlocated⟩ := h
  cases place with
  | root s =>
    obtain rfl : is = [] := List.map_eq_nil_iff.mp hindices
    rfl
  | field base record name t =>
    simp only [Store.designated, bind_eq_ok, pure_eq_ok, reduceCtorEq, and_false,
      exists_false] at hlocated
  | element base index low t =>
    obtain ⟨⟨e, k⟩, js, rfl, rfl, -⟩ := List.map_eq_cons_iff.mp hindices
    simp only [List.map_cons, Store.designated, bind_eq_ok, pure_eq_ok,
      Location.element.injEq] at hlocated
    obtain ⟨-, -, -, -, -, -, -, rfl⟩ := hlocated
    rw [Place.lastIndex?, Int.sub_add_cancel, Int32.ofInt_toInt]
    rfl

/-- Where a place is depends on the values of its indices alone. -/
lemma Visit.Of.again (hu : u.Of host place σ) (hv : v.Of host place σ) : u.Again place v where
  first := hu.indices
  second := hv.indices
  same h := by
    have hlocated := hu.located
    rw [h, hv.located] at hlocated
    exact (Except.ok.inj hlocated).symm
  element hua hva := (hu.head_eq hua).trans (hv.head_eq hva).symm

lemma visit_keeps (hw : w.Sound Γ.statics) (hplace : place.WellTyped Γ)
    (hσ : σ.Sound Γ.statics Γ.slots K) (h : w.visit place σ = .ok (u, τ)) : Keeps Γ K σ τ := by
  have hposition : w.position place σ = .ok (u.location, τ) := by
    rw [World.position_eq, h]
    rfl
  exact ((position_safe hw place hplace hσ).of_ok hposition).1

lemma visit_of (hw : w.Sound Γ.statics) : {place : Place} → {u : Visit} → {τ : Store} →
    (hplace : place.WellTyped Γ) → (hσ : σ.Sound Γ.statics Γ.slots K) →
    (h : w.visit place σ = .ok (u, τ)) → u.Of w.toHost place τ
  | .root s, u, τ, _, _, h => by
    simp only [World.visit, bind_eq_ok, pure_eq_ok, Prod.mk.injEq] at h
    obtain ⟨loc, hloc, rfl, rfl⟩ := h
    exact ⟨rfl, hloc⟩
  | .field base record name t, u, τ, hplace, hσ, h => by
    simp only [World.visit, bind_eq_ok, pure_eq_ok, Prod.exists, Prod.mk.injEq] at h
    obtain ⟨u', υ, hbase, x, hread, a, ha, rfl, rfl⟩ := h
    obtain ⟨hindices, hlocated⟩ := visit_of hw hplace.1 hσ hbase
    refine ⟨hindices, ?_⟩
    simp only [Store.designated, bind_eq_ok, pure_eq_ok]
    exact ⟨_, hlocated, x, hread, a, ha, rfl⟩
  | .element base index low t, u, τ, hplace, hσ, h => by
    simp only [World.visit, bind_eq_ok, pure_eq_ok, Prod.exists, Prod.mk.injEq] at h
    obtain ⟨u', υ, hbase, x, hread, a, ha, y, τ', hindex, i, hi, rfl, rfl⟩ := h
    obtain ⟨hindices, hlocated⟩ := visit_of hw hplace.1 hσ hbase
    have hυ := (visit_keeps hw hplace.1 hσ hbase).sound
    -- the array was found before its index was evaluated
    have hanchored : Anchored Γ K υ τ' :=
      ((value_safe hw index hplace.2.1 hυ).of_ok hindex).1.alike.anchored K
    rw [eq_ref_of_asRef ha] at hread
    refine ⟨by rw [List.map_cons, hindices]; rfl, ?_⟩
    simp only [List.map_cons, Store.designated, bind_eq_ok, pure_eq_ok]
    exact ⟨_, hanchored.designated hυ hplace.1 hlocated, _,
      hanchored _ _ (designated_clear hυ hplace.1 hlocated) hread, a, rfl, rfl⟩

lemma CopiedIn.alike (halike : σ.Alike τ) (hσ : σ.Sound Γ.statics Γ.slots K) :
    {params : List Passing} → {args : List Arg} → {passed : List Passed} →
    {ins : List (Option Visit)} → (hargs : ArgsWellTyped Γ params args) →
    (h : CopiedIn host σ args passed ins) → CopiedIn host τ args passed ins
  | [], [], _, _, _, .nil => .nil
  | _ :: _, .value _ :: _, _, _, hargs, .direct ha h => .direct ha (h.alike halike hσ hargs.2.2.2)
  | _ :: _, .ref .. :: _, _, _, hargs, .direct ha h => .direct ha (h.alike halike hσ hargs.2.2.2.2)
  | _ :: _, .ref .. :: _, _, _, hargs, .cell ha hu h =>
    .cell ha (hu.anchored hσ hargs.2.1 (halike.anchored K)) (h.alike halike hσ hargs.2.2.2.2)

/-- An object, and a variable that is in a cell of its own, is passed as it is. -/
lemma eq_direct_of_lend {t : Ty} {fetch : Store → Eval (Value × Store)} {x : Passed}
    (hdirect : (t.isAggregate || (Emit.ownCell? place).isSome) = true)
    (h : w.lend t place fetch σ = .ok (x, τ)) : ∃ v, x = .direct v := by
  unfold World.lend at h
  split_ifs at h with hagg
  · simp only [bind_eq_ok, pure_eq_ok, Prod.exists, Prod.mk.injEq] at h
    obtain ⟨v, -, -, rfl, -⟩ := h
    exact ⟨v, rfl⟩
  · split at h
    next n hown =>
      simp only [bind_eq_ok, pure_eq_ok, Prod.mk.injEq] at h
      obtain ⟨v, -, rfl, -⟩ := h
      exact ⟨v, rfl⟩
    next hown => simp [hagg, hown] at hdirect

/-- A variable that was copied into a new cell is still where it was copied from. -/
lemma lendFrom_copied {p : Passing} {t : Ty} {x : Passed} {o : Option Visit}
    (hw : w.Sound Γ.statics) (hplace : place.WellTyped Γ) (hsame : p.ty.same t = true)
    (hσ : σ.Sound Γ.statics Γ.slots K) (h : w.lendFrom p.ty place σ = .ok (x, o, τ)) :
    CopiedIn w.toHost τ [.ref place t] [x] [o] := by
  have has : (Arg.ref place t).asItIs = (p.ty.isAggregate || (Emit.ownCell? place).isSome) := by
    rw [Arg.asItIs, Ty.isAggregate_of_same hsame]
  unfold World.lendFrom at h
  split_ifs at h with hdirect
  · simp only [bind_eq_ok, pure_eq_ok, Prod.exists, Prod.mk.injEq] at h
    obtain ⟨x, τ, hlend, rfl, rfl, rfl⟩ := h
    obtain ⟨v, rfl⟩ := eq_direct_of_lend hdirect hlend
    exact .direct (has.trans hdirect) .nil
  · simp only [bind_eq_ok, pure_eq_ok, Prod.exists, Prod.mk.injEq] at h
    obtain ⟨a, ha, u, μ, hvisit, v, hread, υ, hwrite, rfl, rfl, rfl⟩ := h
    obtain ⟨-, hput⟩ := put_new (.array [w.blank p.ty]) hσ ((hw.room σ.heap).of_ok ha)
    have hμ := visit_keeps hw hplace hput hvisit
    rw [write_cell ((hμ.frame (.inl rfl)).trans (σ.heap_put_self ..))] at hwrite
    cases hwrite
    refine .cell (has.trans (Bool.not_eq_true _ ▸ hdirect)) ?_ .nil
    exact (visit_of hw hplace hput hvisit).anchored hμ.sound hplace (anchored_put (.inl rfl) _)

lemma CopiedIn.cons {a : Arg} {x : Passed} {o : Option Visit} {args : List Arg}
    {passed : List Passed} {ins : List (Option Visit)} (h : CopiedIn host σ [a] [x] [o])
    (h' : CopiedIn host σ args passed ins) :
    CopiedIn host σ (a :: args) (x :: passed) (o :: ins) := by
  cases h with
  | direct ha _ => exact .direct ha h'
  | cell ha hu _ => exact .cell ha hu h'

theorem copyIn_copied (hw : w.Sound Γ.statics) : {params : List Passing} → {args : List Arg} →
    (hargs : ArgsWellTyped Γ params args) → {K : Set Nat} → {σ τ : Store} →
    {passed : List Passed} → {ins : List (Option Visit)} →
    (hσ : σ.Sound Γ.statics Γ.slots K) → (h : w.copyIn params args σ = .ok (passed, ins, τ)) →
    CopiedIn w.toHost τ args passed ins
  | [], [], _, K, σ, τ, passed, ins, _, h => by
    rw [World.copyIn] at h
    · cases h
      exact .nil
    all_goals simp
  | p :: params, .value e :: args, ⟨hby, he, haccepts, hargs⟩, K, σ, τ, passed, ins, hσ, h => by
    simp only [World.copyIn, bind_eq_ok, pure_eq_ok, Prod.exists, Prod.mk.injEq] at h
    obtain ⟨x, υ, hx, rest, ins, τ, hrest, rfl, rfl, rfl⟩ := h
    have hυ := ((give_safe hby haccepts (value_safe hw e he hσ)).of_ok hx).sound
    simp only [World.give, bind_eq_ok, pure_eq_ok, Prod.exists, Prod.mk.injEq] at hx
    obtain ⟨-, -, -, v, -, rfl, -⟩ := hx
    exact .direct rfl (copyIn_copied hw hargs hυ hrest)
  | p :: params, .ref place t :: args, ⟨hby, hplace, hty, hsame, hargs⟩, K, σ, τ, passed, ins, hσ,
      h => by
    subst hty
    simp only [World.copyIn, bind_eq_ok, pure_eq_ok, Prod.exists, Prod.mk.injEq] at h
    obtain ⟨x, o, υ, hx, rest, ins, τ, hrest, rfl, rfl, rfl⟩ := h
    have hlend : w.lend p.ty place (w.fetch place) σ = .ok (x, υ) := by
      rw [World.lend_eq, hx]
      rfl
    have hpass : w.passAll params args υ = .ok (rest, τ) := by
      rw [World.passAll_eq, hrest]
      rfl
    have hυ := ((lend_safe hw (fun _ _ => position_safe hw place hplace) hσ hplace hby
      hsame).of_ok hlend).sound
    have halike := ((passAll_safe hw hargs hυ).of_ok hpass).keeps.alike
    have hone : ArgsWellTyped Γ [p] [.ref place place.ty] := ⟨hby, hplace, rfl, hsame, trivial⟩
    exact ((lendFrom_copied hw hplace hsame hσ hx).alike halike hυ hone).cons
      (copyIn_copied hw hargs hυ hrest)

/-- The cells are stored back one after the other. Until its turn comes, each argument is still
where it was copied from. -/
theorem copyBack_copied (hw : w.Sound Γ.statics) : {params : List Passing} → {args : List Arg} →
    (hargs : ArgsWellTyped Γ params args) → {passed : List Passed} →
    {ins outs : List (Option Visit)} → {K : Set Nat} → {σ υ : Store} →
    (hσ : σ.Sound Γ.statics Γ.slots K) →
    (hpassed : List.Forall₂ (fun p x => Passed.Returns σ.heap p x) params passed) →
    (hin : CopiedIn w.toHost σ args passed ins) →
    (h : w.copyBack passed args σ = .ok (outs, υ)) → CopiedBack args ins outs
  | [], [], _, [], _, _, K, σ, υ, _, _, .nil, h => by
    rw [World.copyBack] at h
    · cases h
      exact .nil
    all_goals simp
  | p :: params, .value e :: args, ⟨_, _, _, hargs⟩, .direct x :: passed, _, _, K, σ, υ, hσ,
      .cons _ hpassed, .direct ha hin, h => by
    simp only [World.copyBack, bind_eq_ok, pure_eq_ok, Prod.exists, Prod.mk.injEq] at h
    obtain ⟨outs, υ, hrest, rfl, rfl⟩ := h
    exact .direct ha (copyBack_copied hw hargs hσ hpassed hin hrest)
  | p :: params, .ref place t :: args, ⟨_, _, _, _, hargs⟩, .direct x :: passed, _, _, K, σ, υ, hσ,
      .cons _ hpassed, .direct ha hin, h => by
    simp only [World.copyBack, bind_eq_ok, pure_eq_ok, Prod.exists, Prod.mk.injEq] at h
    obtain ⟨outs, υ, hrest, rfl, rfl⟩ := h
    exact .direct ha (copyBack_copied hw hargs hσ hpassed hin hrest)
  | p :: params, .ref place t :: args, ⟨_, hplace, hty, hsame, hargs⟩, .cell a x :: passed, _, _, K,
      σ, υ, hσ, .cons hx hpassed, .cell ha hu hin, h => by
    subst hty
    simp only [World.copyBack, bind_eq_ok, pure_eq_ok, Prod.exists, Prod.mk.injEq] at h
    obtain ⟨v, τ, hv, outs, υ, hrest, rfl, rfl⟩ := h
    have hrestore : restore (w.position place) a place.ty σ = .ok τ := by
      rw [World.restore_eq, hv]
      rfl
    have hτ := (restore_safe (fun _ _ => position_safe hw place hplace) hσ hsame hx).of_ok hrestore
    simp only [World.storeTo, bind_eq_ok, pure_eq_ok, Prod.exists, Prod.mk.injEq] at hv
    obtain ⟨v, μ, hvisit, -, -, -, -, rfl, -⟩ := hv
    have hμ := visit_keeps hw hplace hσ hvisit
    refine .cell ha ((hu.anchored hσ hplace (hμ.alike.anchored K)).again
      (visit_of hw hplace hσ hvisit)) ?_
    exact copyBack_copied hw hargs hτ.sound (hpassed.imp fun _ _ hy => hy.alike hτ.alike.heap)
      (hin.alike hτ.alike hσ hargs) hrest

/-- What a call copies in it copies back. -/
lemma trace_copied {callee : Signature} {args : List Arg} (hw : w.Sound Γ.statics)
    (hargs : ArgsWellTyped Γ callee.params args) (hσ : σ.Sound Γ.statics Γ.slots K)
    {r : Option Value} {ins outs : List (Option Visit)}
    (h : w.trace callee args σ = .ok (r, ins, outs, υ)) : CopiedBack args ins outs := by
  simp only [World.trace, bind_eq_ok, pure_eq_ok, Prod.exists, Prod.mk.injEq] at h
  obtain ⟨passed, ins, τ, hin, r, g, hr, outs, υ, hout, rfl, rfl, rfl, rfl⟩ := h
  have hpass : w.passAll callee.params args σ = .ok (passed, τ) := by
    rw [World.passAll_eq, hin]
    rfl
  have hhanded := (passAll_safe hw hargs hσ).of_ok hpass
  have hleft := (hhanded.call_safe hw).of_ok hr
  exact copyBack_copied hw hargs hleft.keeps.sound hleft.returns
    ((copyIn_copied hw hargs hσ hin).alike hleft.keeps.alike hhanded.keeps.sound hargs) hout

/-- The code of a well-typed call performs it. -/
lemma call_performs {callee : Signature} {args : List Arg}
    (hargs : ArgsWellTyped Γ callee.params args) {s : Emit.Supply} (hs : Γ.slots.length ≤ s.slot) :
    ∃ code t, Emit.call callee args s = .ok (code, t) ∧ ∀ w : World, w.Sound Γ.statics →
      w.Leaves Γ s.slot (argsLent args) code (w.perform callee args) Option.toList := by
  obtain ⟨push, cells, back, u, v, t, hpush, hback, -, hcode⟩ := call_ok hargs s
  have hle := (Emit.pushArgs_span _ _ hpush).slot_le
  exact ⟨_, t, hcode, fun w hw => World.call_leaves hw hargs hs hle
    (World.pushArgs_pushes hw hargs hpush hs) (World.copyBack_storesBack hw hargs hback hs hle)⟩

lemma World.Runs.of_map {kept : Set Nat} {α β : Type} {block : List Instr} {s : State} {x : Eval α}
    {f : α → β} {out : β → State → Prop} (h : w.Runs kept block s (do return f (← x)) out) :
    w.Runs kept block s x fun a s' => out (f a) s' := by
  intro code pc hn hcode
  have hfollows := h hn hcode
  constructor
  · rintro a rfl
    exact hfollows.reaches rfl
  · rintro t rfl
    exact hfollows.traps rfl

end

end Run

open Run Jvm Typed in
/-- Take any call of a checked program, at any depth in its expressions, and any routines that can
be called. The code of the call does as the trace of the call says. Each scalar variable that is
copied into a cell before the call is found anew after it, and each time all its indices are
evaluated once. It is copied back to where it came from if the indices have the same values again,
and an element of an array only if its index has. -/
theorem var_argument_found_before_and_after {source : List Char} {p : Source.Program}
    {env : Environment} {q : Program} (hparse : Source.Program.parse source = .ok p)
    (henv : Environment.ofProgram p = .ok env) (hcheck : (Check.program env p).outcome = .ok q)
    {body : Stmt} {slots : List ParamDesc} (hbody : (body, slots) ∈ q.bodies) {c : Stmt}
    (hc : c.Within body) {callee : Signature} {args : List Arg}
    (hcall : (callee, args) ∈ c.invocations) {s : Emit.Supply} (hs : slots.length ≤ s.slot) :
    ∃ code t, Emit.call callee args s = .ok (code, t) ∧
      ∀ w : World, w.Sound q.globals → ∀ σ : Store, σ.Sound q.globals slots ∅ → ∀ st,
        w.Runs (spared s.slot (argsLent args)) code ⟨st, σ⟩ (w.trace callee args σ)
          (fun (r, ins, outs, υ) s' => s'.stack = r.toList ++ st ∧
            Agree slots.length υ s'.store ∧ CopiedBack args ins outs) ∧
        w.trace callee args σ ≠ .error .stuck := by
  obtain ⟨Γ, hstatics, rfl, hwt⟩ := (wellTyped_of_checked hparse henv hcheck).statement hbody hc
  have hargs := hwt.invocation hcall
  obtain ⟨code, t, hcode, hperforms⟩ := call_performs hargs hs
  refine ⟨code, t, hcode, fun w hw σ hσ st => ?_⟩
  rw [← hstatics] at hw hσ
  have hruns := hperforms w hw hσ (.refl _ σ) st
  have hsafe := (perform_safe hw hargs hσ).ne_stuck
  rw [World.perform_eq] at hruns hsafe
  refine ⟨fun code pc hn hat => (hruns.of_map hn hat).imp
    fun (r, ins, outs, υ) d htrace _ ⟨hpc, hstack, hagree⟩ => ?_, fun hstuck => hsafe ?_⟩
  · exact ⟨hpc, hstack, hagree, trace_copied hw hargs hσ htrace⟩
  · rw [hstuck]
    rfl

section

open Run Jvm Typed

/-- What the array and the variable of `bumpStore` hold in a store. -/
def bumpContents (σ : Store) : List (Option Value) :=
  σ.slots 0 :: [0, 1, 2, 3, 4].map fun k => (σ.read (.element 0 k)).toOption

/-- The first call in the last body of a program, performed on `bumpStore`: from where and to where
its arguments are copied, and what the store holds then. -/
def bumpTrace? (source : List Char) :
    Option (List (Option Location) × List (Option Location) × List (Option Value)) :=
  (Compile.checked source).outcome.toOption.bind fun q => q.bodies.getLast?.bind fun b =>
    b.1.parts.head?.bind fun c => c.invocations.head?.bind fun i =>
      (bumpWorld.trace i.1 i.2 bumpStore).toOption.bind fun (_, ins, outs, υ) =>
        if fitsBump q.globals b.2 then
          some (ins.map (·.map Visit.location), outs.map (·.map Visit.location), bumpContents υ)
        else none

/-- What is known of such a call. -/
structure BumpTrace (source : List Char) (callee : Signature) (args : List Arg)
    (ins outs : List (Option Visit)) (υ : Store) : Prop where
  call : ∃ q body slots, ∃ c : Stmt, (Compile.checked source).outcome = .ok q ∧
    (body, slots) ∈ q.bodies ∧ c.Within body ∧ (callee, args) ∈ c.invocations ∧
    fitsBump q.globals slots = true
  trace : ∃ r, bumpWorld.trace callee args bumpStore = .ok (r, ins, outs, υ)

lemma of_bumpTrace? {source : List Char} {ins outs : List (Option Location)}
    {held : List (Option Value)} (h : bumpTrace? source = some (ins, outs, held)) :
    ∃ callee args us vs υ, BumpTrace source callee args us vs υ ∧
      us.map (·.map Visit.location) = ins ∧ vs.map (·.map Visit.location) = outs ∧
      bumpContents υ = held := by
  obtain ⟨q, hq, h⟩ := Option.bind_eq_some_iff.mp h
  obtain ⟨⟨body, slots⟩, hbody, h⟩ := Option.bind_eq_some_iff.mp h
  obtain ⟨c, hc, h⟩ := Option.bind_eq_some_iff.mp h
  obtain ⟨⟨callee, args⟩, hcall, h⟩ := Option.bind_eq_some_iff.mp h
  obtain ⟨⟨r, us, vs, υ⟩, htrace, h⟩ := Option.bind_eq_some_iff.mp h
  rw [toOption_eq_some] at hq htrace
  dsimp only at h
  split_ifs at h with hfits
  simp only [Option.some.injEq, Prod.mk.injEq] at h
  exact ⟨callee, args, us, vs, υ, ⟨⟨q, body, slots, c, hq, List.mem_of_getLast? hbody,
    .single (List.mem_of_head? hc), List.mem_of_head? hcall, hfits⟩, r, htrace⟩, h⟩

lemma bumpContents_agree {n : Nat} {σ μ : Store} (hn : 0 < n) (h : Agree n σ μ) :
    bumpContents μ = bumpContents σ := by
  have hread (k : Int) : μ.read (.element 0 k) = σ.read (.element 0 k) :=
    h.read (K := ∅) (Set.notMem_empty 0)
  simp only [bumpContents, h.slots hn, hread]

/-- A call with an index that keeps its value. -/
def steadySource : List Char :=
  ("program p; type row = array[1..5] of integer; var xs: row; " ++
    "function bump(var n: integer; d: integer): integer; begin n := n + d; bump := n end; " ++
    "procedure work; var i: integer; begin i := bump(xs[i + 1], 2) end; begin end.").toList

theorem steadySource_returns_to_element : ∃ callee args us vs υ code t e,
    BumpTrace steadySource callee args us vs υ ∧ CopiedBack args us vs ∧
    us.map (·.map Visit.location) = [some (.element 0 0), none] ∧
    vs.map (·.map Visit.location) = [some (.element 0 0), none] ∧
    Emit.call callee args (.startingAt 1) = .ok (code, t) ∧
    bumpWorld.Leads code ∅ ⟨0, [], bumpStore⟩ e ∧ e.pc = code.length ∧
    bumpContents e.state.store = [0, 9, 0, 0, 0, 0].map fun i => some (.int i) := by
  have htrace : bumpTrace? steadySource = some ([some (.element 0 0), none],
      [some (.element 0 0), none], [0, 9, 0, 0, 0, 0].map fun i => some (.int i)) := by
    decide +kernel
  obtain ⟨callee, args, us, vs, υ, h, hus, hvs, hheld⟩ := of_bumpTrace? htrace
  obtain ⟨q, body, slots, c, hq, hbody, hc, hcall, hfits⟩ := h.call
  obtain ⟨r, hr⟩ := h.trace
  obtain ⟨p, env, hparse, henv, hcheck⟩ := Compile.checked_ok.mp hq
  have hlen := length_of_fitsBump hfits
  obtain ⟨code, t, hcode, hall⟩ := var_argument_found_before_and_after hparse henv hcheck hbody hc
    hcall (s := .startingAt 1) hlen.le
  have hruns := (hall bumpWorld (bumpWorld_sound _) bumpStore (bumpStore_sound hfits) []).1
  obtain ⟨e, he, hpc, -, hagree, hback⟩ :=
    (hruns (Emit.call_spans callee args _ _ _ hcode).1.nodup codeAt_self).reaches hr
  refine ⟨callee, args, us, vs, υ, code, t, e, h, hback, hus, hvs, hcode,
    he.mono (Set.empty_subset _), by simpa using hpc, ?_⟩
  rw [bumpContents_agree (by omega) hagree, hheld]

/-- The index of the first argument of `bumpSource` is evaluated twice. What was copied from the
first element of the array is stored into the fourth one, and the variable is four and not three. -/
theorem bumpSource_stores_elsewhere : ∃ callee args us vs υ code t e,
    BumpTrace bumpSource callee args us vs υ ∧
    us.map (·.map Visit.location) = [some (.element 0 0), none] ∧
    vs.map (·.map Visit.location) = [some (.element 0 3), none] ∧
    Emit.call callee args (.startingAt 1) = .ok (code, t) ∧
    bumpWorld.Leads code ∅ ⟨0, [], bumpStore⟩ e ∧ e.pc = code.length ∧
    bumpContents e.state.store = [4, 7, 0, 0, 10, 0].map fun i => some (.int i) := by
  have htrace : bumpTrace? bumpSource = some ([some (.element 0 0), none],
      [some (.element 0 3), none], [4, 7, 0, 0, 10, 0].map fun i => some (.int i)) := by
    decide +kernel
  obtain ⟨callee, args, us, vs, υ, h, hus, hvs, hheld⟩ := of_bumpTrace? htrace
  obtain ⟨q, body, slots, c, hq, hbody, hc, hcall, hfits⟩ := h.call
  obtain ⟨r, hr⟩ := h.trace
  obtain ⟨p, env, hparse, henv, hcheck⟩ := Compile.checked_ok.mp hq
  obtain ⟨Γ, hstatics, rfl, hwt⟩ := (wellTyped_of_checked hparse henv hcheck).statement hbody hc
  have hlen := length_of_fitsBump hfits
  obtain ⟨code, t, hcode, hperforms⟩ := call_performs (hwt.invocation hcall)
    (s := .startingAt 1) hlen.le
  have hσ : bumpStore.Sound Γ.statics Γ.slots ∅ := hstatics ▸ bumpStore_sound hfits
  have hruns := hperforms bumpWorld (bumpWorld_sound _) hσ (.refl _ _) []
  rw [World.perform_eq] at hruns
  obtain ⟨e, he, hpc, -, hagree⟩ := (hruns.of_map (Emit.call_spans callee args _ _ _ hcode).1.nodup
    codeAt_self).reaches hr
  refine ⟨callee, args, us, vs, υ, code, t, e, h, hus, hvs, hcode, he.mono (Set.empty_subset _),
    by simpa using hpc, ?_⟩
  rw [bumpContents_agree (by omega) hagree, hheld]

end

end PascalJvm
