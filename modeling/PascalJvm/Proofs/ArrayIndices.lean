import Mathlib.Tactic
import PascalJvm.Compile
import PascalJvm.Proofs.CallRuns
import PascalJvm.Proofs.DeclaredTypes
import PascalJvm.Proofs.NestedCalls

/-!
# Array indices

The elements of an array count from zero, so the code of an index subtracts the first index from
its value, and the difference wraps around at 32 bits. Every array that a program can declare has
at least one and at most 2147483647 elements, and its last index is a 32-bit integer
(`Environment.dimension_of_occurs`). That is enough for the wrapped difference to be the number of
an element exactly if the index is one of the array, and then it is the number of that element
(`Dimension.toInt_sub`).
-/
namespace PascalJvm

open Jvm Typed

/-- The first index of an array and its length, as they can be declared. -/
structure Dimension (low : Int32) (len : Nat) : Prop where
  nonempty : 1 ≤ len
  length_le : len ≤ 2147483647
  last_le : low.toInt + len - 1 ≤ 2147483647

/-- The index is one of the array. -/
def Indexes (low : Int32) (len : Nat) (i : Int32) : Prop :=
  low.toInt ≤ i.toInt ∧ i.toInt ≤ low.toInt + len - 1

namespace Environment

variable {path : ScopePath} {env : Environment}

lemma dimension_of_ok {r : Source.IndexRange} {low : Int32} {len : Nat}
    (h : dimension path env r = .ok (low, len)) : Dimension low len := by
  have hbounds := dimension_bounds h
  have hpos : 1 ≤ len := by
    obtain ⟨lowExpr, highExpr⟩ := r
    simp only [dimension, bind_eq_ok] at h
    obtain ⟨high, -, h⟩ := h
    cases lowExpr with
    | none =>
      simp only [bind_eq_ok, pure_eq_ok] at h
      obtain ⟨_, rfl, h⟩ := h
      obtain ⟨hcount, h⟩ := ok_of_guard h
      simp only [pure_eq_ok, Prod.mk.injEq] at h
      dsimp only at hcount
      omega
    | some e =>
      simp only [bind_eq_ok, pure_eq_ok] at h
      obtain ⟨_, -, count, -, _, rfl, h⟩ := h
      obtain ⟨hcount, h⟩ := ok_of_guard h
      simp only [pure_eq_ok, Prod.mk.injEq] at h
      dsimp only at hcount
      omega
  exact ⟨hpos, by omega, by omega⟩

/-- Every array in a declared type has the dimension of some range. -/
lemma dimensions_inherited : Inherited fun t => ∀ low len elem,
    (Ty.array low len elem).Occurs t → Dimension low len where
  basic b low len elem h := by cases h
  enum name low len elem h := by cases h
  record _ hfields low len elem h := by
    cases h with
    | field hu h => exact hfields _ hu low len elem h
  array hdim helem low len elem h := by
    cases h with
    | refl => exact dimension_of_ok hdim
    | element h => exact helem low len elem h

lemma dimension_of_occurs {p : Source.Program} (h : ofProgram p = .ok env) {t : Ty}
    (ht : t ∈ env.tys) {low : Int32} {len : Nat} {elem : Ty}
    (hoccurs : (Ty.array low len elem).Occurs t) : Dimension low len :=
  dimensions_inherited.forall_mem_tys h t ht low len elem hoccurs

end Environment

namespace Dimension

variable {low : Int32} {len : Nat}

/-- The wrapped difference is the number of an element if and only if the index is one of the
array: from an index before the array it wraps around to past the last element, and from one after
it to a negative number. -/
lemma sub_mem_iff (h : Dimension low len) (i : Int32) :
    0 ≤ (i - low).toInt ∧ (i - low).toInt ≤ len - 1 ↔ Indexes low len i := by
  have hlow := low.le_toInt
  have hi := i.le_toInt
  have hi' := i.toInt_lt
  obtain ⟨hpos, hlen, hlast⟩ := h
  rw [Int32.toInt_sub, Int.bmod_def, Indexes]
  omega

lemma toInt_sub (h : Dimension low len) {i : Int32} (hi : Indexes low len i) :
    (i - low).toInt = i.toInt - low.toInt := by
  obtain ⟨hfirst, hlast⟩ := hi
  obtain ⟨hpos, hlen, -⟩ := h
  rw [Int32.toInt_sub, Int.bmod_def]
  omega

end Dimension

namespace Emit

/-- The code of an index: its value, counted from the first index of the array. -/
def indexCode (index : Expr) (low : Int32) : Gen (List Instr) := do
  return (← expr index) ++ rebase low

lemma address_element (base : Place) (index : Expr) (low : Int32) (elem : Ty) :
    address (.element base index low elem) =
      (do return (← path base) ++ (← indexCode index low)) := by
  simp only [address, indexCode, bind_assoc, pure_bind, List.append_assoc]

lemma path_element (base : Place) (index : Expr) (low : Int32) (elem : Ty) :
    path (.element base index low elem) =
      (do return (← address (.element base index low elem)) ++ [.arrayLoad (.ofTy elem)]) := by
  simp only [path, address, bind_assoc, pure_bind]

end Emit

namespace Run

/-- The value of an expression of an ordinal type. -/
def World.ordinal (w : World) (e : Expr) (σ : Store) : Eval (Int32 × Store) := do
  let (v, σ) ← w.value e σ
  return (← asInt v, σ)

lemma World.indexCode_computes {w : World} {Γ : Variables} (hw : w.Sound Γ.statics) {index : Expr}
    (hindex : index.WellTyped Γ) (hord : index.ty.isOrdinal = true) (low : Int32) :
    w.Computes Γ index.lent (Emit.indexCode index low) (w.ordinal index)
      fun i => [.int (i - low)] := by
  intro s code t hcode hs K σ μ hσ hagree st
  simp only [Emit.indexCode, Emit.Gen.bind_ok, Emit.Gen.pure_ok] at hcode
  obtain ⟨codeIndex, u, hcodeIndex, rfl, rfl⟩ := hcode
  refine (World.expr_computes hw index hindex hcodeIndex hs hσ hagree st).append
    fun r s' hr _ hout => ?_
  obtain ⟨v, τ⟩ := r
  obtain ⟨stack, ν⟩ := s'
  obtain ⟨hstack, hagree⟩ := hout
  obtain rfl : stack = [v] ++ st := hstack
  obtain ⟨i, rfl⟩ := ((value_safe hw index hindex hσ).of_ok hr).2.1.eq_int hord
  refine .unchanged (y := .ok i) (f := fun i => [.int (i - low)]) (Emit.straight_rebase low)
    (quiet_rebase low) ?_ hagree
  refine (work_rebase low i st).trans ?_
  rw [Int32.ofInt_sub, Int32.ofInt_toInt, Int32.ofInt_toInt]
  rfl

/-- With the number of an element below it, the instruction that loads or stores an element
selects the one with the index `i`, and an index that is not one of the array is caught. -/
structure Selects (host : Host) (low : Int32) (len : Nat) (i k : Int32) : Prop where
  mem_iff : 0 ≤ k.toInt ∧ k.toInt ≤ len - 1 ↔ Indexes low len i
  number_eq : Indexes low len i → k.toInt = i.toInt - low.toInt
  loads {σ : Store} {a : Nat} {xs : List Value} (kind : Kind) (st : List Value)
    (ha : σ.heap a = some (.array xs)) (hlen : xs.length = len) (hi : Indexes low len i) :
    ∃ x, xs[(i.toInt - low.toInt).toNat]? = some x ∧
      work host (.arrayLoad kind) ⟨.int k :: .ref a :: st, σ⟩ = .ok ⟨x :: st, σ⟩
  stores {σ : Store} {a : Nat} {xs : List Value} (kind : Kind) (v : Value) (st : List Value)
    (ha : σ.heap a = some (.array xs)) (hlen : xs.length = len) (hi : Indexes low len i) :
    work host (.arrayStore kind) ⟨v :: .int k :: .ref a :: st, σ⟩ =
      .ok ⟨st, σ.put a (.array (xs.set (i.toInt - low.toInt).toNat (narrow kind v)))⟩
  caught {σ : Store} {a : Nat} {xs : List Value} (kind : Kind) (v : Value) (st : List Value)
    (ha : σ.heap a = some (.array xs)) (hlen : xs.length = len) (hi : ¬Indexes low len i) :
    work host (.arrayLoad kind) ⟨.int k :: .ref a :: st, σ⟩ = .error (.trap .indexOutOfBounds) ∧
      work host (.arrayStore kind) ⟨v :: .int k :: .ref a :: st, σ⟩ =
        .error (.trap .indexOutOfBounds)

lemma selects_sub {low : Int32} {len : Nat} (h : Dimension low len) (host : Host) (i : Int32) :
    Selects host low len i (i - low) := by
  have hiff := h.sub_mem_iff i
  have hrange : ∀ {xs : List Value}, xs.length = len →
      (Store.inRange xs (i - low).toInt ↔ Indexes low len i) := by
    rintro xs rfl
    rw [← hiff, Store.inRange]
    omega
  refine ⟨hiff, h.toInt_sub, ?_, ?_, ?_⟩
  · intro σ a xs kind st ha hlen hi
    have hlt : (i.toInt - low.toInt).toNat < xs.length := by
      have := h.nonempty
      have := hi.2
      omega
    have hin := (hrange hlen).mpr hi
    rw [h.toInt_sub hi] at hin
    refine ⟨xs[(i.toInt - low.toInt).toNat], List.getElem?_eq_getElem hlt, ?_⟩
    simp only [work, Store.read, ha, h.toInt_sub hi, if_pos hin, List.getElem?_eq_getElem hlt]
    rfl
  · intro σ a xs kind v st ha hlen hi
    have hin := (hrange hlen).mpr hi
    rw [h.toInt_sub hi] at hin
    simp only [work, Store.write, ha, h.toInt_sub hi, if_pos hin]
    rfl
  · intro σ a xs kind v st ha hlen hi
    have hout := mt (hrange hlen).mp hi
    constructor
    · simp only [work, Store.read, ha, if_neg hout]
      rfl
    · simp only [work, Store.write, ha, if_neg hout]
      rfl

end Run

open Run

/-- Every array type in the tables of a program, at any depth, has at least one element, at most
2147483647 of them, and a last index that fits into 32 bits. Wherever an element is reached, the
code of its index leaves the wrapped difference of the index and the first one, and of all 32-bit
values exactly the indices of the array become the number of an element, each of its own. -/
theorem array_index_selects_own_element {p : Source.Program} {env : Environment}
    (h : Environment.ofProgram p = .ok env) {t : Ty} (ht : t ∈ env.tys) {low : Int32} {len : Nat}
    {elem : Ty} (hoccurs : (Ty.array low len elem).Occurs t) :
    (1 ≤ len ∧ len ≤ 2147483647 ∧ low.toInt + len - 1 ≤ 2147483647) ∧
      (∀ base index, Emit.address (.element base index low elem) =
          (do return (← Emit.path base) ++ (← Emit.indexCode index low)) ∧
        Emit.path (.element base index low elem) =
          (do return (← Emit.address (.element base index low elem)) ++
            [.arrayLoad (.ofTy elem)])) ∧
      (∀ (w : World) (Γ : Variables) (index : Expr), w.Sound Γ.statics → index.WellTyped Γ →
        index.ty.isOrdinal = true → w.Computes Γ index.lent (Emit.indexCode index low)
          (w.ordinal index) fun i => [.int (i - low)]) ∧
      ∀ (host : Host) (i : Int32), Selects host low len i (i - low) := by
  have hdim := Environment.dimension_of_occurs h ht hoccurs
  refine ⟨⟨hdim.nonempty, hdim.length_le, hdim.last_le⟩, fun base index => ?_, ?_, ?_⟩
  · exact ⟨Emit.address_element base index low elem, Emit.path_element base index low elem⟩
  · exact fun w Γ index hw hindex hord => World.indexCode_computes hw hindex hord low
  · exact fun host i => selects_sub hdim host i

/-- An array with as many elements as there can be, inside a record. -/
def widestSource : List Char :=
  ("program p; type m = array[-2147483647..-1] of char; r = record f: m end; var x: r; " ++
    "begin end.").toList

/-- The first index and the length of the array that is the one field of a record. -/
def fieldDimension? : Ty → Option (Int32 × Nat)
  | .record _ [(_, .array low len _)] => some (low, len)
  | _ => none

lemma occurs_of_fieldDimension? {t : Ty} {low : Int32} {len : Nat}
    (h : fieldDimension? t = some (low, len)) : ∃ elem, (Ty.array low len elem).Occurs t := by
  unfold fieldDimension? at h
  split at h
  next name field low' len' elem =>
    cases h
    exact ⟨elem, .field List.mem_cons_self .refl⟩
  next => cases h

theorem widestSource_index_selects : ∃ p env low len, Source.Program.parse widestSource = .ok p ∧
    Environment.ofProgram p = .ok env ∧ low.toInt = -2147483647 ∧ len = 2147483647 ∧
    ∀ i : Int32, Selects plainHost low len i (i - low) := by
  have hresult : ((Source.Program.parse widestSource).toOption.bind fun p =>
      (Environment.ofProgram p).toOption.bind fun env => env.tys.getLast?.bind fieldDimension?) =
        some (-2147483647, 2147483647) := by decide +kernel
  obtain ⟨p, hparse, hresult⟩ := Option.bind_eq_some_iff.mp hresult
  obtain ⟨env, henv, hresult⟩ := Option.bind_eq_some_iff.mp hresult
  obtain ⟨t, ht, hresult⟩ := Option.bind_eq_some_iff.mp hresult
  rw [toOption_eq_some] at hparse henv
  obtain ⟨elem, hoccurs⟩ := occurs_of_fieldDimension? hresult
  obtain ⟨-, -, -, hselects⟩ :=
    array_index_selects_own_element henv (List.mem_of_getLast? ht) hoccurs
  exact ⟨p, env, _, _, hparse, henv, by decide, rfl, hselects plainHost⟩

end PascalJvm
