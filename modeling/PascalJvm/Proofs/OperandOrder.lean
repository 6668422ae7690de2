import Mathlib.Tactic
import PascalJvm.Compile
import PascalJvm.Proofs.Operators

/-!
# The order of the operands of a comparison

A literal with one character is a character or a text, whatever the other operand needs, so the
checker has to know the type of the other operand first. It looks at the left operand alone to
decide which of the two that is. With one literal this makes the order of the operands irrelevant;
with two of them the right one is taken as it is, and only the left one can still adapt
(`comparison_swaps_iff`).
-/
namespace PascalJvm.Check

open Typed

lemma comparable_symm {a b : Ty} (h : comparable a b = true) : comparable b a = true := by
  rcases Bool.or_eq_true_iff.mp h with hnum | hsame
  · rw [comparable, Bool.and_comm, hnum, Bool.true_or]
  · -- types whose values can be compared and that are no numbers are the same if they are alike
    obtain ⟨hsame, horder⟩ := Bool.and_eq_true_iff.mp hsame
    have hscalar : a.isAggregate = false := by
      cases a <;> simp_all [Ty.isOrdinal, Ty.is, Ty.isAggregate]
    obtain rfl := Ty.eq_of_same hsame hscalar
    exact h

/-- A literal with one character is a character, unless a text is expected; any other literal is a
text. -/
lemma literal_cases (t : String) :
    (t.toList.length = 1 ∧ literal (some .string) t = .text .string t ∧
      ∃ c, ∀ expected, expected ≠ some .string → literal expected t = .int .char c) ∨
    (t.toList.length ≠ 1 ∧ ∀ expected, literal expected t = .text .string t) := by
  unfold literal
  match t.toList with
  | [] => exact .inr ⟨by simp, fun _ => rfl⟩
  | [c] =>
    refine .inl ⟨rfl, rfl, Int32.ofNat c.toNat, fun expected h => ?_⟩
    split
    next => exact absurd rfl h
    next => simp_all
    next => simp_all
  | _ :: _ :: _ => exact .inr ⟨by simp, fun _ => rfl⟩

section

variable {s : Scope} {op : BinOp} {a b : Source.Expr} {expected : Option Ty} {left right : Expr}

/-- What is expected at the place of an expression matters to literals only. -/
lemma expr_of_not_isText (h : isText a = false) : expr s expected a = expr s none a := by
  cases a with
  | text t => cases h
  | _ => rw [expr, expr]

lemma outcome_text (t : String) :
    (expr s expected (.text t)).outcome = .ok (literal expected t) := by
  rw [expr]
  rfl

/-- The operands of a comparison are checked, in the order that the left one gives. -/
def Compared (s : Scope) (a b : Source.Expr) (left right : Expr) : Prop :=
  if isText a then
    (expr s none b).outcome = .ok right ∧ (expr s (some right.ty) a).outcome = .ok left
  else (expr s none a).outcome = .ok left ∧ (expr s (some left.ty) b).outcome = .ok right

lemma checkBinary_eq_ok (hop : op.isRelational = true) {e : Expr} :
    checkBinary op left right = .ok e ↔
      comparable left.ty right.ty = true ∧ e = .binary .boolean op left right := by
  have hty : binaryTy op left.ty right.ty = (do
      require (comparable left.ty right.ty) (.comparison left.ty right.ty)
      return .boolean) := by
    cases op <;> first | rfl | cases hop
  simp only [checkBinary, hty, bind_eq_ok, pure_eq_ok, require_eq_ok]
  constructor
  · rintro ⟨t, ⟨-, hcomp, rfl⟩, rfl⟩
    exact ⟨hcomp, rfl⟩
  · rintro ⟨hcomp, rfl⟩
    exact ⟨.boolean, ⟨(), hcomp, rfl⟩, rfl⟩

/-- A comparison is accepted if its operands are, with types that can be compared. -/
lemma comparison_eq_ok (hop : op.isRelational = true) {e : Expr} :
    (expr s expected (.binary op a b)).outcome = .ok e ↔ ∃ left right,
      Compared s a b left right ∧ comparable left.ty right.ty = true ∧
        e = .binary .boolean op left right := by
  rw [expr, hop, Bool.true_and]
  unfold Compared
  split_ifs
  · simp only [Traced.outcome_bind, lift, Traced.outcome_ofExcept, bind_eq_ok,
      checkBinary_eq_ok hop]
    constructor
    · rintro ⟨right, hright, left, hleft, h⟩
      exact ⟨left, right, ⟨hright, hleft⟩, h⟩
    · rintro ⟨left, right, ⟨hright, hleft⟩, h⟩
      exact ⟨right, hright, left, hleft, h⟩
  · simp only [Traced.outcome_bind, lift, Traced.outcome_ofExcept, bind_eq_ok,
      checkBinary_eq_ok hop]
    constructor
    · rintro ⟨left, hleft, right, hright, h⟩
      exact ⟨left, right, ⟨hleft, hright⟩, h⟩
    · rintro ⟨left, right, ⟨hleft, hright⟩, h⟩
      exact ⟨left, hleft, right, hright, h⟩

/-- The first operand is a literal with one character, and the second one any other literal. -/
def LoneBeside (a b : Source.Expr) : Prop :=
  ∃ t u, a = .text t ∧ b = .text u ∧ t.toList.length = 1 ∧ u.toList.length ≠ 1

lemma compared_texts {t u : String} : Compared s (.text t) (.text u) left right ↔
    right = literal none u ∧ left = literal (some right.ty) t := by
  simp only [Compared, isText, if_true, outcome_text, Except.ok.injEq, eq_comm]

/-- The operands are the same trees in the other order. -/
lemma Compared.symm (h : Compared s a b left right) (hab : ¬LoneBeside a b)
    (hba : ¬LoneBeside b a) : Compared s b a right left := by
  cases ha : isText a with
  | false =>
    rw [Compared, ha, if_neg (by simp)] at h
    unfold Compared
    split_ifs with hb
    · exact h
    · rw [expr_of_not_isText (Bool.eq_false_iff.mpr hb)] at h
      exact ⟨h.2, (congrArg _ (expr_of_not_isText ha)).trans h.1⟩
  | true =>
    cases hb : isText b with
    | false =>
      rw [Compared, ha, if_pos rfl] at h
      rw [Compared, hb, if_neg (by simp)]
      exact h
    | true =>
      obtain ⟨t, rfl⟩ : ∃ t, a = .text t := by cases a <;> simp_all [isText]
      obtain ⟨u, rfl⟩ : ∃ u, b = .text u := by cases b <;> simp_all [isText]
      rw [compared_texts] at h ⊢
      obtain ⟨rfl, rfl⟩ := h
      rcases literal_cases t with ⟨ht, -, c, hc⟩ | ⟨ht, htext⟩ <;>
        rcases literal_cases u with ⟨hu, -, d, hd⟩ | ⟨hu, hutext⟩
      · have hchar : some Ty.char ≠ some .string := by simp
        rw [hd none (by simp)]
        change literal (some .char) t = _ ∧ _ = literal (some (literal (some .char) t).ty) u
        rw [hc none (by simp), hc _ hchar]
        exact ⟨rfl, (hd _ hchar).symm⟩
      · exact absurd ⟨t, u, rfl, rfl, ht, hu⟩ hab
      · exact absurd ⟨u, t, rfl, rfl, hu, ht⟩ hba
      · simp only [htext, hutext, and_self]

/-- Where the comparison is accepted, it is so with its operands exchanged as well, and each of
them is the same tree. -/
def Swaps (s : Scope) (op : BinOp) (a b : Source.Expr) : Prop :=
  ∀ expected e, (expr s expected (.binary op a b)).outcome = .ok e → ∃ left right,
    e = .binary .boolean op left right ∧
      (expr s expected (.binary op b a)).outcome = .ok (.binary .boolean op right left)

lemma swaps_of_not_loneBeside (hop : op.isRelational = true) (hab : ¬LoneBeside a b)
    (hba : ¬LoneBeside b a) : Swaps s op a b := by
  intro expected e he
  obtain ⟨left, right, hchecked, hcomp, rfl⟩ := (comparison_eq_ok hop).mp he
  exact ⟨left, right, rfl, (comparison_eq_ok hop).mpr
    ⟨right, left, hchecked.symm hab hba, comparable_symm hcomp, rfl⟩⟩

/-- On the left the literal with one character becomes a text, on the right it does not. -/
lemma loneBeside_refused (hop : op.isRelational = true) (h : LoneBeside a b)
    (expected : Option Ty) : ∃ t u,
      (expr s expected (.binary op a b)).outcome =
        .ok (.binary .boolean op (.text .string t) (.text .string u)) ∧
      (expr s expected (.binary op b a)).outcome = .error (.comparison .string .char) := by
  obtain ⟨t, u, rfl, rfl, ht, hu⟩ := h
  obtain ⟨-, htext, c, hc⟩ := (literal_cases t).resolve_right fun h => h.1 ht
  obtain ⟨-, hutext⟩ := (literal_cases u).resolve_left fun h => hu h.1
  refine ⟨t, u, (comparison_eq_ok hop).mpr ⟨_, _, compared_texts.mpr ⟨?_, ?_⟩, ?_, rfl⟩, ?_⟩
  · exact (hutext none).symm
  · exact htext.symm
  · rfl
  · rw [expr, hop, Bool.true_and]
    simp only [isText, if_true, Traced.outcome_bind, outcome_text, hutext, hc none (by simp)]
    cases op <;> first | rfl | cases hop

lemma not_loneBeside_of_swaps (hop : op.isRelational = true) (h : Swaps s op a b) :
    ¬LoneBeside a b := by
  intro hlone
  obtain ⟨t, u, hok, herror⟩ := loneBeside_refused (s := s) hop hlone none
  obtain ⟨left, right, -, hright⟩ := h none _ hok
  rw [herror] at hright
  cases hright

end

/-- The order of the operands of a comparison does not matter, for acceptance nor for the trees
that the operands become, exactly if they are not two literals of which one alone has one
character. Of two such literals, the one with one character has to stand on the left. -/
theorem comparison_swaps_iff (s : Scope) {op : BinOp} (hop : op.isRelational = true)
    (a b : Source.Expr) :
    (Swaps s op a b ∧ Swaps s op b a ↔ ¬LoneBeside a b ∧ ¬LoneBeside b a) ∧
    (LoneBeside a b → ∀ expected, ∃ t u,
      (expr s expected (.binary op a b)).outcome =
        .ok (.binary .boolean op (.text .string t) (.text .string u)) ∧
      (expr s expected (.binary op b a)).outcome = .error (.comparison .string .char)) := by
  refine ⟨⟨fun h => ?_, fun h => ?_⟩, loneBeside_refused hop⟩
  · exact ⟨not_loneBeside_of_swaps hop h.1, not_loneBeside_of_swaps hop h.2⟩
  · exact ⟨swaps_of_not_loneBeside hop h.1 h.2, swaps_of_not_loneBeside hop h.2 h.1⟩

/-- A scope with one variable, a character. -/
def letterScope : Scope := ⟨⟨[], [], [("c", .char)], []⟩, [], [], []⟩

theorem letter_comparison_swaps : BinOp.isRelational .lt = true ∧
    (expr letterScope none (.binary .lt (.text "x") (.name "c"))).outcome.toOption.isSome = true ∧
    Swaps letterScope .lt (.text "x") (.name "c") ∧
    Swaps letterScope .lt (.name "c") (.text "x") := by
  refine ⟨rfl, by decide +kernel, (comparison_swaps_iff letterScope rfl _ _).1.mpr ⟨?_, ?_⟩⟩
  · rintro ⟨_, _, -, hb, -⟩
    cases hb
  · rintro ⟨_, _, ha, -⟩
    cases ha

/-- A comparison of two literals, the one with one character first. -/
def loneFirst : List Char := "program p; var b: boolean; begin b := 'c' = 'ab' end.".toList

/-- The same with the literals exchanged. -/
def loneLast : List Char := "program p; var b: boolean; begin b := 'ab' = 'c' end.".toList

/-- Whether a comparison is accepted may depend on the order of its operands. -/
theorem comparison_order_matters : (∃ q, (Compile.checked loneFirst).outcome = .ok q) ∧
    (∃ e, (Compile.checked loneLast).outcome = .error e ∧
      e.message = "type mismatch in comparison: string and char") ∧
    ¬Swaps letterScope .eq (.text "c") (.text "ab") := by
  have hfirst : (Compile.checked loneFirst).outcome.toOption.isSome = true := by decide +kernel
  have hlast : (match (Compile.checked loneLast).outcome with
      | .error e => some e.message
      | .ok _ => none) = some "type mismatch in comparison: string and char" := by decide +kernel
  obtain ⟨q, hq⟩ := Option.isSome_iff_exists.mp hfirst
  refine ⟨⟨q, toOption_eq_some.mp hq⟩, ?_, fun hswaps => ?_⟩
  · split at hlast
    next e he => exact ⟨e, he, Option.some.inj hlast⟩
    next => cases hlast
  · exact not_loneBeside_of_swaps rfl hswaps ⟨"c", "ab", rfl, rfl, by decide, by decide⟩

end PascalJvm.Check
