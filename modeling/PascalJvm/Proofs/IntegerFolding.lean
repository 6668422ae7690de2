import Mathlib.Tactic
import PascalJvm.Proofs.ConstantCode

/-!
# Exact integer constants

The value of a constant expression on integers is computed without rounding or wrapping. It has
one exactly if no divisor is zero, the exact value of every part of it is an integer of 32 bits,
and no remainder is taken of the least integer by -1 (`integer_folding_exact_iff`). The last
condition stands apart: that remainder is zero, but the division that leaves it has a quotient
that is too large, and is refused together with its remainder.
-/
namespace PascalJvm

namespace Source.ConstExpr

/-- The first expression is the second one or a part of it, at any depth. -/
inductive PartOf (x : ConstExpr) : ConstExpr → Prop
  | whole : PartOf x x
  | argument {f : String} {args : List ConstExpr} {a : ConstExpr} (ha : a ∈ args)
      (h : PartOf x a) : PartOf x (.call f args)
  | operand {op : UnOp} {a : ConstExpr} (h : PartOf x a) : PartOf x (.unary op a)
  | left {op : BinOp} {a b : ConstExpr} (h : PartOf x a) : PartOf x (.binary op a b)
  | right {op : BinOp} {a b : ConstExpr} (h : PartOf x b) : PartOf x (.binary op a b)

variable {P : ConstExpr → Prop} {a b : ConstExpr}

lemma forall_partOf_int {i : Int32} : (∀ x, PartOf x (.int i) → P x) ↔ P (.int i) := by
  refine ⟨fun h => h _ .whole, fun h x hx => ?_⟩
  cases hx
  exact h

lemma forall_partOf_name {n : String} : (∀ x, PartOf x (.name n) → P x) ↔ P (.name n) := by
  refine ⟨fun h => h _ .whole, fun h x hx => ?_⟩
  cases hx
  exact h

lemma forall_partOf_unary {op : UnOp} :
    (∀ x, PartOf x (.unary op a) → P x) ↔ P (.unary op a) ∧ ∀ x, PartOf x a → P x := by
  constructor
  · intro h
    exact ⟨h _ .whole, fun x hx => h x (.operand hx)⟩
  · rintro ⟨hwhole, hpart⟩ x hx
    cases hx with
    | whole => exact hwhole
    | operand hx => exact hpart x hx

lemma forall_partOf_binary {op : BinOp} :
    (∀ x, PartOf x (.binary op a b) → P x) ↔
      P (.binary op a b) ∧ (∀ x, PartOf x a → P x) ∧ ∀ x, PartOf x b → P x := by
  constructor
  · intro h
    exact ⟨h _ .whole, fun x hx => h x (.left hx), fun x hx => h x (.right hx)⟩
  · rintro ⟨hwhole, hleft, hright⟩ x hx
    cases hx with
    | whole => exact hwhole
    | left hx => exact hleft x hx
    | right hx => exact hright x hx

end Source.ConstExpr

namespace Constant

open Source (ConstExpr)

/-- The number is an integer of 32 bits. -/
def Representable (n : Int) : Prop := -2147483648 ≤ n ∧ n ≤ 2147483647

/-- The operators that take two integers to an integer. -/
def integerOps : List BinOp := [.add, .sub, .mul, .intDiv, .mod]

/-- The exact result of an operator on integers. A quotient is truncated, and a remainder has the
sign of the dividend. -/
def exactOp : BinOp → Int → Int → Int
  | .add, x, y => x + y
  | .sub, x, y => x - y
  | .mul, x, y => x * y
  | .intDiv, x, y => x.tdiv y
  | .mod, x, y => x.tmod y
  | _, _, _ => 0

variable (known : List (String × Constant))

/-- The expression is built from integers: literals, named constants, a minus sign, and the
operators on integers. -/
inductive Integral : ConstExpr → Prop
  | literal (i : Int32) : Integral (.int i)
  | constant {n : String} {i : Int32} (h : known.lookup n = some (.int i)) : Integral (.name n)
  | neg {x : ConstExpr} (hx : Integral x) : Integral (.unary .neg x)
  | binary {op : BinOp} {a b : ConstExpr} (hop : op ∈ integerOps) (ha : Integral a)
      (hb : Integral b) : Integral (.binary op a b)

/-- The exact value of an expression on integers. -/
def exact : ConstExpr → Int
  | .int i => i.toInt
  | .name n =>
      match known.lookup n with
      | some (.int i) => i.toInt
      | _ => 0
  | .unary .neg x => -exact x
  | .binary op a b => exactOp op (exact a) (exact b)
  | _ => 0

/-- The exact value is an integer of 32 bits and comes from no division by zero. -/
def Sound (x : ConstExpr) : Prop :=
  Representable (exact known x) ∧
    ∀ op a b, x = .binary op a b → op = .intDiv ∨ op = .mod → exact known b ≠ 0

/-- A remainder of the least integer by -1. -/
def LeastRemainder (x : ConstExpr) : Prop :=
  ∃ a b, x = .binary .mod a b ∧ exact known a = -2147483648 ∧ exact known b = -1

/-- Every part of the expression has its value. -/
def Foldable (e : ConstExpr) : Prop := ∀ x, x.PartOf e → Sound known x ∧ ¬LeastRemainder known x

/-- The operator has a result for these operands. -/
structure Allowed (op : BinOp) (x y : Int) : Prop where
  result : Representable (exactOp op x y)
  divisor : op = .intDiv ∨ op = .mod → y ≠ 0
  quotient : op = .mod → ¬(x = -2147483648 ∧ y = -1)

variable {known} {op : BinOp} {x y v : Int32} {a b e : ConstExpr}

lemma representable_toInt (i : Int32) : Representable i.toInt := by
  have hle := i.le_toInt
  have hlt := i.toInt_lt
  constructor <;> omega

lemma representable_of_toInt {n : Int} (h : v.toInt = n) : Representable n := by
  rw [← h]
  exact representable_toInt v

lemma fit_eq_some {n : Int} : fit? n = some v ↔ v.toInt = n := by
  refine ⟨toInt_of_fit, ?_⟩
  rintro rfl
  exact fit_toInt v

lemma exists_toInt {n : Int} (h : Representable n) : ∃ v : Int32, v.toInt = n := by
  obtain ⟨hle, hge⟩ := h
  exact ⟨Int32.ofInt n, Int32.toInt_ofInt_of_le (by omega) (by omega)⟩

/-- The quotient of two integers is one, but for that of the least integer by -1. -/
lemma representable_tdiv {m n : Int} (hm : Representable m) (hn : n ≠ 0) :
    Representable (m.tdiv n) ↔ ¬(m = -2147483648 ∧ n = -1) := by
  obtain ⟨hle, hge⟩ := hm
  by_cases hone : n = -1
  · subst hone
    rw [Int.tdiv_neg, Int.tdiv_one, Representable]
    omega
  · refine iff_of_true ?_ fun h => hone h.2
    have habs : (m.tdiv n).natAbs = m.natAbs / n.natAbs := Int.natAbs_tdiv m n
    by_cases hself : n = 1
    · subst hself
      rw [Int.tdiv_one]
      exact ⟨hle, hge⟩
    · have htwo : 2 ≤ n.natAbs := by omega
      have hhalf : m.natAbs / n.natAbs ≤ m.natAbs / 2 := Nat.div_le_div_left htwo (by decide)
      constructor <;> omega

lemma toInt_ne_zero : y.toInt ≠ 0 ↔ y ≠ 0 := by
  rw [← Int32.toInt_inj.ne]
  rfl

/-- Each operator gives its exact result where it is allowed, and nothing elsewhere. -/
lemma integerOp_eq_some (hop : op ∈ integerOps) : ∃ f, integerOp? op = some f ∧ ∀ x y v,
    f x y = some v ↔ Allowed op x.toInt y.toInt ∧ v.toInt = exactOp op x.toInt y.toInt := by
  -- a sum, a difference and a product are allowed as soon as they fit
  have hfits : ∀ op : BinOp, ¬(op = .intDiv ∨ op = .mod) → ∀ x y v : Int32,
      (v.toInt = exactOp op x.toInt y.toInt ↔
        Allowed op x.toInt y.toInt ∧ v.toInt = exactOp op x.toInt y.toInt) := by
    intro op hop x y v
    refine ⟨fun hv => ⟨⟨representable_of_toInt hv, fun h => absurd h hop, fun h => ?_⟩, hv⟩,
      And.right⟩
    exact absurd (.inr h) hop
  simp only [integerOps, List.mem_cons, List.not_mem_nil, or_false] at hop
  rcases hop with rfl | rfl | rfl | rfl | rfl
  · exact ⟨_, rfl, fun x y v => fit_eq_some.trans (hfits .add (by decide) x y v)⟩
  · exact ⟨_, rfl, fun x y v => fit_eq_some.trans (hfits .sub (by decide) x y v)⟩
  · exact ⟨_, rfl, fun x y v => fit_eq_some.trans (hfits .mul (by decide) x y v)⟩
  · refine ⟨_, rfl, fun x y v => ?_⟩
    rw [Option.ite_none_left_eq_some, fit_eq_some]
    constructor
    · rintro ⟨hy, hv⟩
      refine ⟨⟨representable_of_toInt hv, fun _ => toInt_ne_zero.mpr hy, fun h => ?_⟩, hv⟩
      exact absurd h (by decide)
    · rintro ⟨hallowed, hv⟩
      exact ⟨toInt_ne_zero.mp (hallowed.divisor (.inl rfl)), hv⟩
  · -- the quotient has to fit as well, though it is not the result
    refine ⟨_, rfl, fun x y v => ?_⟩
    rw [Option.ite_none_left_eq_some, Option.bind_eq_some_iff]
    constructor
    · rintro ⟨hy, q, hq, hv⟩
      have hzero := toInt_ne_zero.mpr hy
      have hquotient : Representable (x.toInt.tdiv y.toInt) :=
        representable_of_toInt (fit_eq_some.mp hq)
      have hv := fit_eq_some.mp hv
      refine ⟨⟨representable_of_toInt hv, fun _ => hzero, fun _ => ?_⟩, hv⟩
      exact (representable_tdiv (representable_toInt x) hzero).mp hquotient
    · rintro ⟨hallowed, hv⟩
      have hzero := hallowed.divisor (.inr rfl)
      obtain ⟨q, hq⟩ := exists_toInt
        ((representable_tdiv (representable_toInt x) hzero).mpr (hallowed.quotient rfl))
      exact ⟨toInt_ne_zero.mp hzero, q, fit_eq_some.mpr hq, fit_eq_some.mpr hv⟩

lemma binary_of_allowed (hop : op ∈ integerOps) (h : Allowed op x.toInt y.toInt)
    (hv : v.toInt = exactOp op x.toInt y.toInt) : binary op (.int x) (.int y) = .ok (.int v) := by
  obtain ⟨f, hf, hspec⟩ := integerOp_eq_some hop
  unfold binary
  rw [hf]
  dsimp only
  rw [(hspec x y v).mpr ⟨h, hv⟩]
  rfl

lemma binary_of_not_allowed (hop : op ∈ integerOps) (h : ¬Allowed op x.toInt y.toInt) :
    binary op (.int x) (.int y) = .error .constOverflow := by
  obtain ⟨f, hf, hspec⟩ := integerOp_eq_some hop
  have hnone : f x y = none := by
    rw [Option.eq_none_iff_forall_ne_some]
    intro v hv
    exact h ((hspec x y v).mp hv).1
  unfold binary
  rw [hf]
  dsimp only
  rw [hnone]
  rfl

lemma foldable_int (i : Int32) : Foldable known (.int i) := by
  refine ConstExpr.forall_partOf_int.mpr ⟨⟨representable_toInt i, nofun⟩, ?_⟩
  rintro ⟨_, _, h, -⟩
  cases h

lemma foldable_name {n : String} {i : Int32} (h : known.lookup n = some (.int i)) :
    Foldable known (.name n) ∧ exact known (.name n) = i.toInt := by
  have hexact : exact known (.name n) = i.toInt := by rw [exact, h]
  refine ⟨ConstExpr.forall_partOf_name.mpr ⟨⟨?_, nofun⟩, ?_⟩, hexact⟩
  · rw [hexact]
    exact representable_toInt i
  · rintro ⟨_, _, h, -⟩
    cases h

lemma foldable_neg :
    Foldable known (.unary .neg e) ↔ Foldable known e ∧ Representable (-exact known e) := by
  refine ConstExpr.forall_partOf_unary.trans ?_
  rw [and_comm]
  refine and_congr_right fun _ => ⟨fun h => h.1.1, fun h => ⟨⟨h, nofun⟩, ?_⟩⟩
  rintro ⟨_, _, h, -⟩
  cases h

lemma foldable_binary : Foldable known (.binary op a b) ↔
    Foldable known a ∧ Foldable known b ∧ Allowed op (exact known a) (exact known b) := by
  refine ConstExpr.forall_partOf_binary.trans ?_
  rw [and_comm, and_assoc]
  refine and_congr_right fun _ => and_congr_right fun _ => ?_
  constructor
  · rintro ⟨⟨hrange, hdivisor⟩, hleast⟩
    refine ⟨hrange, hdivisor op a b rfl, ?_⟩
    rintro rfl ⟨hx, hy⟩
    exact hleast ⟨a, b, rfl, hx, hy⟩
  · intro h
    refine ⟨⟨h.result, ?_⟩, ?_⟩
    · intro op' a' b' heq
      cases heq
      exact h.divisor
    · rintro ⟨a', b', heq, hx, hy⟩
      cases heq
      exact h.quotient rfl ⟨hx, hy⟩

/-- An expression on integers has its exact value, or there is an overflow or a division by zero
in it. The first operand that has no value decides. -/
theorem Integral.outcome (h : Integral known e) :
    (Foldable known e ∧ ∃ v, v.toInt = exact known e ∧ eval known e = .ok (.int v)) ∨
      (¬Foldable known e ∧ eval known e = .error .constOverflow) := by
  induction h with
  | literal i => exact .inl ⟨foldable_int i, i, rfl, rfl⟩
  | @constant n i hn =>
    obtain ⟨hfold, hexact⟩ := foldable_name hn
    refine .inl ⟨hfold, i, hexact.symm, ?_⟩
    rw [eval, hn]
    rfl
  | @neg x _ ih =>
    rw [foldable_neg, eval]
    rcases ih with ⟨hfold, i, hi, heval⟩ | ⟨hfold, heval⟩
    · rw [heval]
      change _ ∨ (_ ∧ unary .neg (.int i) = _)
      by_cases hrange : Representable (-exact known x)
      · obtain ⟨v, hv⟩ := exists_toInt hrange
        refine .inl ⟨⟨hfold, hrange⟩, v, hv, ?_⟩
        change unary .neg (.int i) = _
        rw [unary, hi, fit_eq_some.mpr hv]
        rfl
      · refine .inr ⟨fun h => hrange h.2, ?_⟩
        have hnone : fit? (-exact known x) = none := by
          rw [Option.eq_none_iff_forall_ne_some]
          intro v hv
          exact hrange (representable_of_toInt (fit_eq_some.mp hv))
        rw [unary, hi, hnone]
        rfl
    · exact .inr ⟨fun h => hfold h.1, by rw [heval]; rfl⟩
  | @binary op a b hop _ _ iha ihb =>
    rw [foldable_binary, eval]
    rcases iha with ⟨hfoldA, x, hx, hevalA⟩ | ⟨hfoldA, hevalA⟩
    · rcases ihb with ⟨hfoldB, y, hy, hevalB⟩ | ⟨hfoldB, hevalB⟩
      · rw [hevalA, hevalB, ← hx, ← hy]
        by_cases hallowed : Allowed op x.toInt y.toInt
        · obtain ⟨v, hv⟩ := exists_toInt hallowed.result
          refine .inl ⟨⟨hfoldA, hfoldB, hallowed⟩, v, ?_, binary_of_allowed hop hallowed hv⟩
          rw [exact, ← hx, ← hy, hv]
        · exact .inr ⟨fun h => hallowed h.2.2, binary_of_not_allowed hop hallowed⟩
      · exact .inr ⟨fun h => hfoldB h.2.1, by rw [hevalA, hevalB]; rfl⟩
    · exact .inr ⟨fun h => hfoldA h.1, by rw [hevalA]; rfl⟩

/-- An expression on integers has the value `v` exactly if all its parts have one, and then `v` is
the exact value of the whole. In every other case there is an error. -/
theorem integer_folding_exact_iff (h : Integral known e) :
    (∀ v, eval known e = .ok (.int v) ↔ Foldable known e ∧ v.toInt = exact known e) ∧
      (¬Foldable known e → eval known e = .error .constOverflow) := by
  rcases h.outcome with ⟨hfold, w, hw, heval⟩ | ⟨hfold, heval⟩
  · refine ⟨fun v => ?_, fun hnot => absurd hfold hnot⟩
    rw [heval, ← hw, Int32.toInt_inj]
    constructor
    · intro hv
      cases hv
      exact ⟨hfold, rfl⟩
    · rintro ⟨-, rfl⟩
      rfl
  · refine ⟨fun v => ?_, fun _ => heval⟩
    rw [heval]
    exact ⟨nofun, fun hv => absurd hv.1 hfold⟩

/-- The least integer, under a name. -/
def leastKnown : List (String × Constant) := [("least", .int (-2147483648))]

/-- `-(least + 1) + (-7) mod 2`: the sum in the middle brings the value back into the range that
`-least` would leave. -/
def nearestEdge : ConstExpr :=
  .binary .add (.unary .neg (.binary .add (.name "least") (.int 1)))
    (.binary .mod (.int (-7)) (.int 2))

theorem nearestEdge_folds : Integral leastKnown nearestEdge ∧
    eval leastKnown nearestEdge = .ok (.int 2147483646) ∧ Foldable leastKnown nearestEdge ∧
    exact leastKnown nearestEdge = 2147483646 ∧
    Integral leastKnown (.unary .neg (.name "least")) ∧
    ¬Foldable leastKnown (.unary .neg (.name "least")) ∧
    eval leastKnown (.unary .neg (.name "least")) = .error .constOverflow := by
  have hadd : BinOp.add ∈ integerOps := by decide
  have hmod : BinOp.mod ∈ integerOps := by decide
  have hleast : Integral leastKnown (.name "least") := .constant rfl
  have hedge : Integral leastKnown nearestEdge :=
    .binary hadd (.neg (.binary hadd hleast (.literal 1)))
      (.binary hmod (.literal (-7)) (.literal 2))
  have hvalue : eval leastKnown nearestEdge = .ok (.int 2147483646) := by rfl
  obtain ⟨hfold, hexact⟩ := ((integer_folding_exact_iff hedge).1 2147483646).mp hvalue
  have hnot : ¬Foldable leastKnown (.unary .neg (.name "least")) := by
    rw [foldable_neg]
    rintro ⟨-, -, hle⟩
    revert hle
    decide
  exact ⟨hedge, hvalue, hfold, hexact.symm, .neg hleast, hnot,
    (integer_folding_exact_iff (.neg hleast)).2 hnot⟩

/-- No divisor is zero and every part has an exact value of 32 bits, but there is no result. -/
theorem least_remainder_refused :
    Integral [] (.binary .mod (.int (-2147483648)) (.int (-1))) ∧
    (∀ x, ConstExpr.PartOf x (.binary .mod (.int (-2147483648)) (.int (-1))) → Sound [] x) ∧
    exact [] (.binary .mod (.int (-2147483648)) (.int (-1))) = 0 ∧
    eval [] (.binary .mod (.int (-2147483648)) (.int (-1))) = .error .constOverflow := by
  refine ⟨.binary (by decide) (.literal _) (.literal _), ?_, by decide, by rfl⟩
  rw [ConstExpr.forall_partOf_binary, ConstExpr.forall_partOf_int, ConstExpr.forall_partOf_int]
  refine ⟨⟨?_, ?_⟩, ⟨representable_toInt _, nofun⟩, ⟨representable_toInt _, nofun⟩⟩
  · unfold Representable
    decide
  · intro op a b heq _
    cases heq
    decide

end Constant
end PascalJvm
