import Mathlib.Tactic
import PascalJvm.Emit.Expression
import PascalJvm.Proofs.Outcome
import PascalJvm.Proofs.WellTyped

/-!
# Operators on well-typed operands

The ways in which a binary operation can be well-typed, and for each of them the kind of
arithmetic and the instructions that stand for the operator.
-/
namespace PascalJvm

namespace Check

@[simp] theorem require_eq_ok {c : Bool} {e : CheckError} {u : Unit} :
    require c e = .ok u ↔ c = true := by
  cases c <;> simp [require]

/-- The operand types of an operator, and the type of its result. -/
inductive Operands : BinOp → Ty → Ty → Ty → Prop
  | arithmetic {op : BinOp} {a b : Ty} (hop : op = .add ∨ op = .sub ∨ op = .mul)
      (ha : a.isNumeric = true) (hb : b.isNumeric = true) : Operands op a b (wider a b)
  | quotient {a b : Ty} (ha : a.isNumeric = true) (hb : b.isNumeric = true) :
      Operands .div a b .real
  | integral {op : BinOp} (hop : op = .intDiv ∨ op = .mod) :
      Operands op .integer .integer .integer
  | logical {op : BinOp} (hop : op = .and ∨ op = .or) : Operands op .boolean .boolean .boolean
  | related {op : BinOp} {a b : Ty} (hop : (Emit.relation? op).isSome = true)
      (h : comparable a b = true) : Operands op a b .boolean

theorem operands_of_binaryTy {op : BinOp} {a b r : Ty} (h : binaryTy op a b = .ok r) :
    Operands op a b r := by
  cases op <;> simp only [binaryTy, bind_eq_ok, pure_eq_ok, require_eq_ok, Bool.and_eq_true] at h
  case add | sub | mul =>
    obtain ⟨-, ⟨ha, hb⟩, rfl⟩ := h
    exact .arithmetic (by simp) ha hb
  case div =>
    obtain ⟨-, ⟨ha, hb⟩, rfl⟩ := h
    exact .quotient ha hb
  case intDiv | mod =>
    obtain ⟨-, ha, -, hb, rfl⟩ := h
    rw [Ty.eq_basic_of_is ha, Ty.eq_basic_of_is hb]
    exact .integral (by simp)
  case and | or =>
    obtain ⟨-, ha, -, hb, rfl⟩ := h
    rw [Ty.eq_basic_of_is ha, Ty.eq_basic_of_is hb]
    exact .logical (by simp)
  all_goals
    obtain ⟨-, h, rfl⟩ := h
    exact .related rfl h

lemma Operands.of_relation {op : BinOp} {a b r : Ty} {rel : Jvm.Relation} (h : Operands op a b r)
    (hop : Emit.relation? op = some rel) : comparable a b = true ∧ r = .boolean := by
  cases h with
  | arithmetic hmem => rcases hmem with rfl | rfl | rfl <;> cases hop
  | quotient => cases hop
  | integral hmem => rcases hmem with rfl | rfl <;> cases hop
  | logical hmem => rcases hmem with rfl | rfl <;> cases hop
  | related _ hcomp => exact ⟨hcomp, rfl⟩

end Check

namespace Emit

open Jvm Check

variable {op : BinOp} {a b r t : Ty}

lemma eq_real_of_retypes (h : Ty.real.Retypes t) : t = .real := by
  rcases h with rfl | ⟨h, -⟩
  · rfl
  · cases h

lemma isOrdinal_of_retypes (hr : r.isOrdinal = true) (h : r.Retypes t) : t.isOrdinal = true := by
  rcases h with rfl | ⟨-, h⟩
  · exact hr
  · exact h

lemma is_of_isOrdinal (h : t.isOrdinal = true) : t.is .real = false ∧ t.is .string = false := by
  cases t with
  | basic b => cases b <;> simp_all [Ty.isOrdinal, Ty.is]
  | _ => exact ⟨rfl, rfl⟩

lemma arithKind_of_isOrdinal (h : t.isOrdinal = true) : arithKind t = .int := by
  simp [arithKind, (is_of_isOrdinal h).1]

/-- Arithmetic is on floats as soon as one operand is real. -/
lemma wider_cases (ha : a.isNumeric = true) (hb : b.isNumeric = true) :
    (wider a b = .real ∧ (a = .real ∨ b = .real)) ∨
      (a = .integer ∧ b = .integer ∧ wider a b = .integer) := by
  rcases Ty.isNumeric_iff.mp ha with rfl | rfl <;> rcases Ty.isNumeric_iff.mp hb with rfl | rfl
  · exact .inr ⟨rfl, rfl, rfl⟩
  all_goals exact .inl ⟨rfl, by simp⟩

/-- Which arithmetic an operator that is no comparison does: on floats, on integers, or on
truth values. -/
lemma operatorKind_cases (h : Operands op a b r) (hop : relation? op = none) (ht : r.Retypes t) :
    (operatorKind t op = .float ∧ a.isNumeric = true ∧ b.isNumeric = true ∧ t = .real ∧
      (op = .add ∨ op = .sub ∨ op = .mul ∨ op = .div) ∧ (op = .div ∨ a = .real ∨ b = .real)) ∨
    (operatorKind t op = .int ∧ a = .integer ∧ b = .integer ∧ t.isOrdinal = true ∧
      (op = .add ∨ op = .sub ∨ op = .mul ∨ op = .intDiv ∨ op = .mod)) ∨
    (operatorKind t op = .int ∧ a = .boolean ∧ b = .boolean ∧ t.isOrdinal = true ∧
      (op = .and ∨ op = .or)) := by
  cases h with
  | arithmetic hmem ha hb =>
    have hkind : operatorKind t op = arithKind t := by rcases hmem with rfl | rfl | rfl <;> rfl
    rcases wider_cases ha hb with ⟨hw, hreal⟩ | ⟨rfl, rfl, hw⟩
    · rw [hw] at ht
      obtain rfl := eq_real_of_retypes ht
      exact .inl ⟨hkind, ha, hb, rfl, by tauto, .inr hreal⟩
    · rw [hw] at ht
      have hord := isOrdinal_of_retypes rfl ht
      exact .inr (.inl ⟨hkind.trans (arithKind_of_isOrdinal hord), rfl, rfl, hord, by tauto⟩)
  | quotient ha hb => exact .inl ⟨rfl, ha, hb, eq_real_of_retypes ht, by simp, .inl rfl⟩
  | integral hmem =>
    refine .inr (.inl ⟨?_, rfl, rfl, isOrdinal_of_retypes rfl ht, by tauto⟩)
    rcases hmem with rfl | rfl <;> rfl
  | logical hmem =>
    refine .inr (.inr ⟨?_, rfl, rfl, isOrdinal_of_retypes rfl ht, hmem⟩)
    rcases hmem with rfl | rfl <;> rfl
  | related hsome _ =>
    rw [hop] at hsome
    cases hsome

/-- Only numbers are widened to floats for an operator. -/
lemma operatorKind_widens (h : Operands op a b r) (hop : relation? op = none) (ht : r.Retypes t) :
    (operatorKind t op = .float ∧ a.isNumeric = true ∧ b.isNumeric = true) ∨
      operatorKind t op = .int := by
  rcases operatorKind_cases h hop ht with ⟨hk, ha, hb, -⟩ | ⟨hk, -⟩ | ⟨hk, -⟩
  · exact .inl ⟨hk, ha, hb⟩
  · exact .inr hk
  · exact .inr hk

/-- How two values are compared: as floats, as texts, or as integers. -/
lemma compare_cases (h : comparable a b = true) :
    (compareKind a b = .float ∧ a.isNumeric = true ∧ b.isNumeric = true ∧ (a = .real ∨ b = .real) ∧
      ∀ rel l, compare rel a b l = [.compareFloats, .ifZero rel l]) ∨
    (compareKind a b = .int ∧ a = .string ∧ b = .string ∧
      ∀ rel l, compare rel a b l = [.invoke .compareStrings, .ifZero rel l]) ∨
    (compareKind a b = .int ∧ a.isOrdinal = true ∧ b.isOrdinal = true ∧
      ∀ rel l, compare rel a b l = [.ifCompare rel l]) := by
  rcases Bool.or_eq_true_iff.mp h with h | h
  · obtain ⟨ha, hb⟩ := Bool.and_eq_true_iff.mp h
    rcases Ty.isNumeric_iff.mp ha with rfl | rfl <;> rcases Ty.isNumeric_iff.mp hb with rfl | rfl
    · exact .inr (.inr ⟨rfl, rfl, rfl, fun _ _ => rfl⟩)
    all_goals exact .inl ⟨rfl, rfl, rfl, by simp, fun _ _ => rfl⟩
  · obtain ⟨hsame, h⟩ := Bool.and_eq_true_iff.mp h
    rcases Bool.or_eq_true_iff.mp h with hord | hstr
    · have hord' := Ty.isOrdinal_of_same hsame hord
      obtain ⟨hreal, htext⟩ := is_of_isOrdinal hord
      obtain ⟨hreal', -⟩ := is_of_isOrdinal hord'
      refine .inr (.inr ⟨?_, hord, hord', fun _ _ => ?_⟩)
      · simp [compareKind, hreal, hreal']
      · simp [compare, hreal, hreal', htext]
    · obtain rfl := Ty.eq_basic_of_is hstr
      cases b with
      | basic b =>
        obtain rfl : Basic.string = b := by simpa [Ty.same] using hsame
        exact .inr (.inl ⟨rfl, rfl, rfl, fun _ _ => rfl⟩)
      | _ => cases hsame

lemma compareKind_widens (h : comparable a b = true) :
    (compareKind a b = .float ∧ a.isNumeric = true ∧ b.isNumeric = true) ∨
      compareKind a b = .int := by
  rcases compare_cases h with ⟨hk, ha, hb, -⟩ | ⟨hk, -⟩ | ⟨hk, -⟩
  · exact .inl ⟨hk, ha, hb⟩
  · exact .inr hk
  · exact .inr hk

lemma widen_of_same (h : t.same a = true) : widen t a = [] := by
  refine if_neg fun hc => ?_
  rw [Bool.and_eq_true] at hc
  rw [Ty.eq_basic_of_is hc.1, Ty.eq_basic_of_is hc.2] at h
  cases h

/-- Two ways to store a value: as it is, or an integer as a float. -/
lemma widen_cases (h : t.accepts a = true) :
    (t.same a = true ∧ widen t a = []) ∨ (t = .real ∧ a = .integer ∧ widen t a = [.intToFloat]) := by
  rcases Ty.accepts_cases h with hsame | ⟨rfl, rfl⟩
  · exact .inl ⟨hsame, widen_of_same hsame⟩
  · exact .inr ⟨rfl, rfl, rfl⟩

lemma eq_root_of_ownCell {place : Typed.Place} {n : Nat} (h : ownCell? place = some n) :
    ∃ name ty, place = .root ⟨name, .cell n, ty⟩ := by
  unfold ownCell? at h
  split at h
  next name m ty =>
    cases h
    exact ⟨name, ty, rfl⟩
  next => cases h

end Emit
end PascalJvm
