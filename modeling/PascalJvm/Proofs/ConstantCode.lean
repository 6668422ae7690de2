import Mathlib
import PascalJvm.Proofs.Checking
import PascalJvm.Proofs.EmissionFaults
import PascalJvm.Proofs.ExpressionRuns
import PascalJvm.Proofs.SameText

/-!
# Constants and code

A text that can stand in a constant declaration and in a statement has the same type and the same
value in both. The constant is evaluated exactly, and fails where an integer does not fit; the
code wraps around. `Denotes` says that a checked expression stands for a constant, and there is
one lemma for each way to build the one and the other.
-/
namespace PascalJvm

open Source (Twin Twins ConstExpr)

mutual

/-- The names of constants and functions in a constant expression. -/
def Source.ConstExpr.identifiers : ConstExpr → List String
  | .name n => [n]
  | .call f args => f :: Source.allIdentifiers args
  | .unary _ x => x.identifiers
  | .binary _ a b => a.identifiers ++ b.identifiers
  | _ => []

def Source.allIdentifiers : List ConstExpr → List String
  | [] => []
  | c :: cs => c.identifiers ++ Source.allIdentifiers cs

end

/-- No variable and no routine has the name. -/
def Check.Scope.Clear (s : Check.Scope) (name : String) : Prop :=
  s.symbol? name = none ∧ s.isRoutine name = false

namespace Constant

/-- What stands on the stack for a constant: its ordinal number, real or text. -/
def value : Constant → Run.Value
  | real x => .real x
  | text s => .text s
  | c => .int (c.ordinal?.getD 0)

lemma value_eq_int {c : Constant} {i : Int32} (h : c.ordinal? = some i) : c.value = .int i := by
  cases c <;> simp_all [value, ordinal?]

lemma eq_ofInt_of_fit {n : Int} {i : Int32} (h : fit? n = some i) : i = Int32.ofInt n := by
  rw [← toInt_of_fit h, Int32.ofInt_toInt]

lemma fit_of_le {n : Nat} (h : n ≤ 0x10FFFF) : fit? n = some (Int32.ofNat n) := by
  rw [fit?, if_pos (by simp only [Bool.and_eq_true, decide_eq_true_eq]; omega)]
  rfl

lemma toNat_le (letter : Char) : letter.toNat ≤ 0x10FFFF := by
  have hvalid := letter.valid
  unfold UInt32.isValidChar Nat.isValidChar at hvalid
  change letter.val.toNat ≤ 0x10FFFF
  omega

lemma fit_toInt (i : Int32) : fit? i.toInt = some i := by
  rw [fit?, if_pos, Int32.ofInt_toInt]
  simp only [Bool.and_eq_true, decide_eq_true_eq]
  exact ⟨i.le_toInt, i.toInt_lt⟩

end Constant

namespace Run

open Constant

/-- The host does arithmetic on reals as it is done for constants. -/
structure Host.Exact (host : Host) : Prop where
  add : host.add = .add
  sub : host.sub = .sub
  mul : host.mul = .mul
  div : host.div = .div
  neg : host.neg = .neg
  ofInt : host.ofInt = .ofInt32

variable {host : Host} {a b v : Constant} {op : BinOp} {x y z : Int32}

/-- Where the exact result of an operator on integers fits, the machine has the same. -/
lemma onInts_of_integerOp {f : Int32 → Int32 → Option Int32} (hf : integerOp? op = some f)
    (h : f x y = some z) : onInts x y op = .ok z := by
  cases op <;> simp only [integerOp?, Option.some.injEq, reduceCtorEq] at hf <;> subst hf
  case add => simp [onInts, eq_ofInt_of_fit h, Int32.ofInt_add]
  case sub => simp [onInts, eq_ofInt_of_fit h, Int32.ofInt_sub]
  case mul => simp [onInts, eq_ofInt_of_fit h, Int32.ofInt_mul]
  case intDiv =>
    rw [Option.ite_none_left_eq_some] at h
    obtain ⟨hy, h⟩ := h
    have hz : (x / y).toInt = z.toInt := by
      rw [Int32.toInt_div, ← toInt_of_fit h, Int32.toInt_bmod_size]
    rw [onInts, if_neg hy, Int32.toInt_inj.mp hz]
  case mod =>
    rw [Option.ite_none_left_eq_some] at h
    obtain ⟨hy, h⟩ := h
    obtain ⟨_, -, h⟩ := Option.bind_eq_some_iff.mp h
    have hz : (x % y).toInt = z.toInt := by rw [Int32.toInt_mod, toInt_of_fit h]
    rw [onInts, if_neg hy, Int32.toInt_inj.mp hz]

lemma unary_of_constant {op : UnOp} (h : Constant.unary op a = .ok v) :
    a.ty = v.ty ∧ ∀ host : Host, host.Exact → unary host op a.value = .ok v.value := by
  cases op <;> cases a <;> try cases h
  case neg.int i =>
    simp only [Constant.unary, map_eq_ok, orError_eq_ok] at h
    obtain ⟨z, hz, rfl⟩ := h
    simp [unary, Constant.value, ordinal?, eq_ofInt_of_fit hz, Int32.ofInt_neg, Constant.ty]
  case neg.real x =>
    refine ⟨rfl, fun host hhost => ?_⟩
    rw [Constant.value, unary, hhost.neg]
    rfl
  case not.bool b => exact ⟨rfl, fun host _ => unary_not_ofBool host b⟩

lemma eq_int_of_ty (h : a.ty = .integer) : ∃ i, a = .int i := by
  cases a <;> simp_all [Constant.ty]

lemma eq_bool_of_ty (h : a.ty = .boolean) : ∃ p, a = .bool p := by
  cases a <;> simp_all [Constant.ty]

lemma arithmetic_of_integers (hop : (integerOp? op).isSome = true)
    (h : Constant.binary op (.int x) (.int y) = .ok v) :
    v.ty = .integer ∧ ∀ host : Host, host.Exact →
      arithmetic host op (Constant.int x).value (Constant.int y).value = .ok v.value := by
  obtain ⟨f, hf⟩ := Option.isSome_iff_exists.mp hop
  simp only [Constant.binary, hf, map_eq_ok, orError_eq_ok] at h
  obtain ⟨z, hz, rfl⟩ := h
  refine ⟨rfl, fun host _ => (arithmetic_of_int x y ?_).trans ?_⟩
  · rintro rfl
    cases hf
  · rw [onInts_of_integerOp hf hz]
    rfl

lemma arithmetic_of_booleans {p q : Bool} (hop : op = .and ∨ op = .or)
    (h : Constant.binary op (.bool p) (.bool q) = .ok v) :
    v.ty = .boolean ∧ ∀ host : Host, host.Exact →
      arithmetic host op (Constant.bool p).value (Constant.bool q).value = .ok v.value := by
  obtain ⟨hand, hor⟩ := onInts_ofBool p q
  rcases hop with rfl | rfl <;> cases h
  · refine ⟨rfl, fun host _ => (arithmetic_of_int (ofBool p) (ofBool q) (by simp)).trans ?_⟩
    rw [hand]
    rfl
  · refine ⟨rfl, fun host _ => (arithmetic_of_int (ofBool p) (ofBool q) (by simp)).trans ?_⟩
    rw [hor]
    rfl

lemma hasTy_value (heap : Heap) (c : Constant) : HasTy heap c.ty c.value := by
  cases c <;> trivial

lemma asReal_value (hhost : host.Exact) {c : Constant} {z : Single} (h : c.real? = some z) :
    asReal host c.value = .ok z := by
  cases c <;> cases h
  case int i => rw [← hhost.ofInt]; rfl
  case real => rfl

lemma onReals_of_realOp (hhost : host.Exact) {f : Single → Single → Single}
    (hf : realOp? op = some f) (z w : Single) : onReals host z w op = .ok (f z w) := by
  cases op <;> cases hf <;> simp [onReals, hhost.add, hhost.sub, hhost.mul, hhost.div]

lemma binary_eq_realBinary {f : Single → Single → Single} (hf : realOp? op = some f)
    (hreal : op = .div ∨ a.ty = .real ∨ b.ty = .real) :
    Constant.binary op a b = realBinary f a b := by
  have hmixed : mixedBinary op a b = realBinary f a b := by cases op <;> cases hf <;> rfl
  rw [← hmixed, Constant.binary]
  rintro g x y hg rfl rfl
  rcases hreal with rfl | h | h
  · cases hg
  · cases h
  · cases h

/-- As soon as one operand is real, or the operator divides, both are taken as reals. -/
lemma arithmetic_of_reals {f : Single → Single → Single} (hf : realOp? op = some f)
    (hreal : op = .div ∨ a.ty = .real ∨ b.ty = .real) (h : Constant.binary op a b = .ok v) :
    v.ty = .real ∧
      ∀ host : Host, host.Exact → arithmetic host op a.value b.value = .ok v.value := by
  rw [binary_eq_realBinary hf hreal] at h
  simp only [realBinary, bind_eq_ok, orError_eq_ok, pure_eq_ok] at h
  obtain ⟨z, hz, w, hw, rfl⟩ := h
  refine ⟨rfl, fun host hhost => ?_⟩
  rw [arithmetic_of_real (hasTy_value (fun _ => none) a) (hasTy_value _ b) hreal, onNumbers,
    asReal_value hhost hz, asReal_value hhost hw]
  change (onReals host z w op >>= _) = _
  rw [onReals_of_realOp hhost hf]
  rfl

/-- Arithmetic on constants is that of the machine, whichever operands are widened. -/
lemma binary_of_constant {r : Ty} (h : Constant.binary op a b = .ok v)
    (hop : Emit.relation? op = none) (hty : Check.Operands op a.ty b.ty r) :
    v.ty = r ∧ ∀ host : Host, host.Exact → binary host op a.value b.value = .ok v.value := by
  simp only [binary, orders_eq_none hop]
  generalize ha : a.ty = s, hb : b.ty = t at hty
  cases hty with
  | arithmetic hmem hs ht =>
    rcases Emit.wider_cases hs ht with ⟨hw, hreal⟩ | ⟨rfl, rfl, hw⟩ <;> rw [hw]
    · obtain ⟨f, hf⟩ : ∃ f, realOp? op = some f := by
        rcases hmem with rfl | rfl | rfl <;> exact ⟨_, rfl⟩
      exact arithmetic_of_reals hf (.inr (by rwa [ha, hb])) h
    · obtain ⟨i, rfl⟩ := eq_int_of_ty ha
      obtain ⟨j, rfl⟩ := eq_int_of_ty hb
      exact arithmetic_of_integers (by rcases hmem with rfl | rfl | rfl <;> rfl) h
  | quotient => exact arithmetic_of_reals rfl (.inl rfl) h
  | integral hmem =>
    obtain ⟨i, rfl⟩ := eq_int_of_ty ha
    obtain ⟨j, rfl⟩ := eq_int_of_ty hb
    exact arithmetic_of_integers (by rcases hmem with rfl | rfl <;> rfl) h
  | logical hmem =>
    obtain ⟨p, rfl⟩ := eq_bool_of_ty ha
    obtain ⟨q, rfl⟩ := eq_bool_of_ty hb
    exact arithmetic_of_booleans hmem h
  | related hsome =>
    rw [hop] at hsome
    cases hsome

end Run

namespace Check

open Typed Constant Run

/-- The expression stands for the constant: it has its type and its value, in every store. -/
structure Denotes (e : Expr) (c : Constant) : Prop where
  ty_eq : e.ty = c.ty
  wellTyped (Γ : Variables) : e.WellTyped Γ
  callFree : e.callFree = true
  eval_eq (host : Host) (hhost : host.Exact) (σ : Store) : Run.eval host σ e = .ok c.value

variable {x y : Expr} {a b c : Constant}

lemma denotes_constantExpr (c : Constant) : Denotes (constantExpr c) c where
  ty_eq := by cases c <;> rfl
  wellTyped _ := constantExpr_wellTyped c
  callFree := by cases c <;> rfl
  eval_eq _ _ _ := by cases c <;> rfl

lemma denotes_ordinal {i : Int32} (h : c.ordinal? = some i) : Denotes (.int c.ty i) c := by
  have hexpr : constantExpr c = .int c.ty i := by cases c <;> simp_all [constantExpr, ordinal?]
  rw [← hexpr]
  exact denotes_constantExpr c

lemma Denotes.unary {op : UnOp} {z : Expr} (hx : Denotes x a) (hz : checkUnary op x = .ok z)
    (hc : Constant.unary op a = .ok c) : Denotes z c := by
  have hwt (Γ : Variables) : z.WellTyped Γ := checkUnary_wellTyped (hx.wellTyped Γ) hz
  obtain rfl : .unary x.ty op x = z := by
    cases op <;> simp only [checkUnary, bind_eq_ok, pure_eq_ok] at hz <;> exact hz.choose_spec.2
  obtain ⟨hty, hvalue⟩ := unary_of_constant hc
  refine ⟨hx.ty_eq.trans hty, hwt, hx.callFree, fun host hhost σ => ?_⟩
  rw [Run.eval, hx.eval_eq host hhost]
  exact hvalue host hhost

lemma Denotes.binary {op : BinOp} {z : Expr} (hop : Emit.relation? op = none) (hx : Denotes x a)
    (hy : Denotes y b) (hz : checkBinary op x y = .ok z) (hc : Constant.binary op a b = .ok c) :
    Denotes z c := by
  have hwt (Γ : Variables) : z.WellTyped Γ :=
    checkBinary_wellTyped (hx.wellTyped Γ) (hy.wellTyped Γ) hz
  simp only [checkBinary, bind_eq_ok, pure_eq_ok] at hz
  obtain ⟨r, hr, rfl⟩ := hz
  rw [hx.ty_eq, hy.ty_eq] at hr
  obtain ⟨hty, hvalue⟩ := binary_of_constant hc hop (operands_of_binaryTy hr)
  refine ⟨hty.symm, hwt, ?_, fun host hhost σ => ?_⟩
  · rw [Expr.callFree, hx.callFree, hy.callFree, Bool.and_self]
  · rw [Run.eval, hx.eval_eq host hhost, hy.eval_eq host hhost]
    exact hvalue host hhost

/-- The value of an expression does not depend on the type it is taken with. -/
lemma Denotes.retype {t : Ty} (hx : Denotes x a) (hwt : ∀ Γ, (x.retype t).WellTyped Γ)
    (hty : c.ty = t) (hvalue : c.value = a.value) : Denotes (x.retype t) c := by
  have heval (host : Host) (σ : Store) : Run.eval host σ (x.retype t) = Run.eval host σ x := by
    cases x <;> simp only [Expr.retype, Run.eval]
  refine ⟨?_, hwt, ?_, fun host hhost σ => ?_⟩
  · rw [hty]
    cases x <;> rfl
  · rw [← hx.callFree]
    cases x <;> rfl
  · rw [heval, hx.eval_eq host hhost, hvalue]

/-- Built-in functions leave the ordinal number as it is. -/
lemma Denotes.builtin {f : Constant.Builtin} {name : String} {z : Expr}
    (hf : Constant.Builtin.ofName? name = some f) (hx : Denotes x a)
    (hz : applyBuiltin f x = .ok z) (hc : Constant.apply name a = .ok c) : Denotes z c := by
  have hwt (Γ : Variables) : z.WellTyped Γ := applyBuiltin_wellTyped (hx.wellTyped Γ) hz
  cases f with
  | ord =>
    simp only [applyBuiltin, bind_eq_ok, pure_eq_ok] at hz
    obtain ⟨-, -, rfl⟩ := hz
    simp only [Constant.apply, hf, map_eq_ok, orError_eq_ok] at hc
    obtain ⟨i, hi, rfl⟩ := hc
    exact hx.retype hwt rfl (value_eq_int hi).symm
  | chr =>
    simp only [applyBuiltin, bind_eq_ok, pure_eq_ok] at hz
    obtain ⟨-, -, rfl⟩ := hz
    simp only [Constant.apply, hf] at hc
    split at hc
    next i =>
      split_ifs at hc with hrange
      cases hc
      simp only [Bool.and_eq_true, decide_eq_true_eq] at hrange
      have hchar : (char i.toInt.toNat).ordinal? = some i := by
        rw [ordinal?, Int.toNat_of_nonneg hrange.1, fit_toInt]
      exact hx.retype hwt rfl (value_eq_int hchar)
    next => cases hc

lemma denotes_text {expected : Option Ty} (hexpected : expected ≠ some .string) {t : String}
    (ht : t.toList.length ≠ 1) : Denotes (literal expected t) (.text t) := by
  unfold literal
  split
  next => simp_all
  next => simp_all
  next => exact denotes_constantExpr (.text t)

lemma denotes_letter {expected : Option Ty} (hexpected : expected ≠ some .string) (letter : Char) :
    Denotes (literal expected (String.ofList [letter])) (.char letter.toNat) := by
  have hliteral : literal expected (String.ofList [letter]) =
      .int .char (Int32.ofNat letter.toNat) := by
    unfold literal
    rw [String.toList_ofList]
    split <;> simp_all
  rw [hliteral]
  exact denotes_ordinal (c := .char _) (fit_of_le (toNat_le letter))

/-- A left operand that is no string: none of the operators of constants takes one. -/
lemma ne_string_of_checkBinary {op : BinOp} {z : Expr} (hop : Emit.relation? op = none)
    (hz : checkBinary op x y = .ok z) : some x.ty ≠ some .string := by
  simp only [checkBinary, bind_eq_ok, pure_eq_ok] at hz
  obtain ⟨r, hr, -⟩ := hz
  have hoperands := operands_of_binaryTy hr
  rintro hstring
  rw [Option.some.inj hstring] at hoperands
  rcases Emit.operatorKind_cases hoperands hop (.refl r) with h | h | h
  · cases h.2.1
  · cases h.2.1
  · cases h.2.1

lemma relation_eq_none {op : BinOp} (h : op.isRelational = false) : Emit.relation? op = none := by
  cases op <;> first | rfl | cases h

variable {s : Scope}

/-- Two readings of one text: the constant has the type and the value of the expression. -/
theorem denotes_of_twin (ce : ConstExpr) {e : Source.Expr} (htwin : Twin ce e)
    {expected : Option Ty} (hexpected : expected ≠ some .string)
    (hclear : ∀ n ∈ ce.identifiers, s.Clear n) {v : Constant} {h : Expr}
    (hv : Constant.eval s.env.consts ce = .ok v) (hh : (expr s expected e).outcome = .ok h) :
    Denotes h v := by
  match ce with
  | .int i =>
    obtain rfl := htwin
    cases hv
    cases hh
    exact denotes_constantExpr (.int i)
  | .real x =>
    obtain rfl := htwin
    cases hv
    cases hh
    exact denotes_constantExpr (.real x)
  | .bool b =>
    obtain rfl := htwin
    cases hv
    cases hh
    exact denotes_constantExpr (.bool b)
  | .char c =>
    cases hv
    rcases htwin with ⟨rfl, hc⟩ | ⟨letter, rfl, rfl⟩
    · cases hh
      exact denotes_ordinal (c := .char c) (fit_of_le (by omega))
    · cases hh
      exact denotes_letter hexpected letter
  | .text t =>
    obtain ⟨rfl, ht⟩ := htwin
    cases hv
    cases hh
    exact denotes_text hexpected ht
  | .name n =>
    obtain rfl := htwin
    obtain ⟨hsymbol, -⟩ := hclear n (List.mem_singleton.mpr rfl)
    simp only [Constant.eval, orError_eq_ok] at hv
    simp only [expr, checkName, hsymbol, hv] at hh
    cases hh
    exact denotes_constantExpr v
  | .call f [x] =>
    obtain ⟨args', rfl, x', rest, rfl, htwin, rfl⟩ := htwin
    obtain ⟨-, hroutine⟩ := hclear f List.mem_cons_self
    have hclear' : ∀ n ∈ x.identifiers, s.Clear n := by
      intro n hn
      refine hclear n (List.mem_cons_of_mem _ (List.mem_append_left _ hn))
    simp only [Constant.eval, bind_eq_ok] at hv
    obtain ⟨a, ha, hv⟩ := hv
    have hbuiltin : builtin? s f = Constant.Builtin.ofName? f := by
      rw [builtin?, hroutine]
      rfl
    cases hf : Constant.Builtin.ofName? f with
    | none =>
      simp only [Constant.apply, hf] at hv
      cases hv
    | some b =>
      simp only [expr, hbuiltin, hf] at hh
      obtain ⟨y, hy, hh⟩ := Traced.bind_ok.mp hh
      exact (denotes_of_twin x htwin (Option.some_ne_none _).symm hclear' ha hy).builtin hf hh hv
  | .call f [] => cases hv
  | .call f (_ :: _ :: _) => cases hv
  | .unary op x =>
    obtain ⟨x', rfl, htwin⟩ := htwin
    simp only [Constant.eval, bind_eq_ok] at hv
    obtain ⟨a, ha, hv⟩ := hv
    rw [expr] at hh
    obtain ⟨y, hy, hh⟩ := Traced.bind_ok.mp hh
    exact (denotes_of_twin x htwin (Option.some_ne_none _).symm hclear ha hy).unary hh hv
  | .binary op a b =>
    obtain ⟨hrel, a', b', rfl, htwinA, htwinB⟩ := htwin
    have hop := relation_eq_none hrel
    have hclearA : ∀ n ∈ a.identifiers, s.Clear n := fun n hn => hclear n (List.mem_append_left _ hn)
    have hclearB : ∀ n ∈ b.identifiers, s.Clear n := fun n hn => hclear n (List.mem_append_right _ hn)
    simp only [Constant.eval, bind_eq_ok] at hv
    obtain ⟨va, ha, vb, hb, hv⟩ := hv
    rw [expr, hrel, Bool.false_and, if_neg Bool.false_ne_true] at hh
    obtain ⟨left, hleft, hh⟩ := Traced.bind_ok.mp hh
    obtain ⟨right, hright, hh⟩ := Traced.bind_ok.mp hh
    have hexpected' := ne_string_of_checkBinary hop hh
    exact (denotes_of_twin a htwinA (Option.some_ne_none _).symm hclearA ha hleft).binary hop
      (denotes_of_twin b htwinB hexpected' hclearB hb hright) hh hv

end Check

open Run Jvm in
/-- Take a text that can be read as a constant expression and as an ordinary expression, in a scope
where no variable and no routine has a name that is used in it. If the constant has a value, and
the expression is well-typed, they have the same type, and the code of the expression leaves the
value of the constant on the stack, whatever is below it and in the store. -/
theorem constant_agrees_with_code {text rest : List Char} {ce : ConstExpr} {e : Source.Expr}
    (hce : (Source.constExpression text).result = some (.ok ce, rest))
    (he : (Source.expression text).result = some (.ok e, rest)) {s : Check.Scope}
    (hclear : ∀ n ∈ ce.identifiers, s.Clear n) {v : Constant} {h : Typed.Expr}
    (hv : Constant.eval s.env.consts ce = .ok v) (hh : (Check.expr s none e).outcome = .ok h) :
    h.ty = v.ty ∧ ∀ supply : Emit.Supply, ∃ code after, Emit.expr h supply = .ok (code, after) ∧
      ∀ host : Host, host.Exact → ∀ whole p, (boundLabels whole).Nodup → CodeAt whole p code →
        ∀ st σ, Reaches host whole ⟨p, st, σ⟩ ⟨p + code.length, v.value :: st, σ⟩ := by
  have hdenotes := Check.denotes_of_twin ce (Source.twin_of_same_text hce he)
    (Option.some_ne_none _).symm hclear hv hh
  refine ⟨hdenotes.ty_eq, fun supply => ?_⟩
  -- nothing of the store is used, so that it is well-typed for no variables at all
  let Γ : Typed.Variables := ⟨[], [], nofun, nofun, nofun⟩
  have hwt := hdenotes.wellTyped Γ
  cases hcode : Emit.expr h supply with
  | error err =>
    have hfails : Emit.FailsOnly (fun _ => False) (Emit.expr h) := Emit.expr_failsOnly hwt
    exact (hfails supply err hcode).elim
  | ok r =>
    refine ⟨r.1, r.2, rfl, fun host hhost whole p hn hat st σ => ?_⟩
    have hσ : σ.WellTyped Γ.statics Γ.slots := ⟨nofun, nofun⟩
    exact (expr_computes hσ h hwt hdenotes.callFree hcode st hn hat).reaches
      (hdenotes.eval_eq host hhost σ)

/-- Where one constant is declared, and no variable or routine. -/
def limitScope : Check.Scope where
  env := { consts := [("limit", .int 5)], types := [], vars := [], routines := [] }
  path := ["demo"]
  locals := []
  routines := []

/-- A negative quotient, the ordinal number of a one-letter text, and a division of integers that
gives a real. -/
def ratioText : List Char := "(-7 div limit + ord('a')) / 2;".toList

def ratioConst : ConstExpr :=
  .binary .div (.binary .add (.binary .intDiv (.unary .neg (.int 7)) (.name "limit"))
    (.call "ord" [.char 97])) (.int 2)

def ratioExpr : Source.Expr :=
  .binary .div (.binary .add (.binary .intDiv (.unary .neg (.int 7)) (.name "limit"))
    (.call "ord" [.text "a"])) (.int 2)

def ratioHost : Run.Host := ⟨.add, .sub, .mul, .div, .neg, .ofInt32, fun _ _ => 0, fun _ _ => 0⟩

open Run Jvm in
theorem ratioText_agrees_with_code : ∃ v h code after,
    (Source.constExpression ratioText).result = some (.ok ratioConst, [';']) ∧
    (Source.expression ratioText).result = some (.ok ratioExpr, [';']) ∧
    ratioConst.identifiers = ["limit", "ord"] ∧ limitScope.Clear "limit" ∧ limitScope.Clear "ord" ∧
    Constant.eval limitScope.env.consts ratioConst = .ok v ∧
    v.value = .real (Single.div (.ofInt32 96) (.ofInt32 2)) ∧
    (Check.expr limitScope none ratioExpr).outcome = .ok h ∧ h.ty = v.ty ∧
    Emit.expr h ⟨0, 0, 0⟩ = .ok (code, after) ∧ code.length = 10 ∧
    Reaches ratioHost code ⟨0, [], fun _ => none, fun _ => none, fun _ => none⟩
      ⟨0 + code.length, [v.value], fun _ => none, fun _ => none, fun _ => none⟩ := by
  have hce : (Source.constExpression ratioText).result = some (.ok ratioConst, [';']) := by cbv
  have he : (Source.expression ratioText).result = some (.ok ratioExpr, [';']) := by cbv
  have hclear : ∀ n ∈ ratioConst.identifiers, limitScope.Clear n := by
    change ∀ n ∈ ["limit", "ord"], limitScope.Clear n
    simp only [List.forall_mem_cons]
    exact ⟨⟨rfl, rfl⟩, ⟨rfl, rfl⟩, List.forall_mem_nil _⟩
  obtain ⟨hty, hcode⟩ := constant_agrees_with_code hce he hclear rfl rfl
  obtain ⟨code, after, hcode, hrun⟩ := hcode ⟨0, 0, 0⟩
  obtain ⟨rfl, rfl⟩ := Prod.mk.inj (Except.ok.inj hcode)
  exact ⟨_, _, _, _, hce, he, rfl, ⟨rfl, rfl⟩, ⟨rfl, rfl⟩, rfl, rfl, rfl, hty, rfl, rfl,
    hrun ratioHost ⟨rfl, rfl, rfl, rfl, rfl, rfl⟩ _ 0 (by decide)
      (fun j ins hj => by simpa using hj) _ _⟩

end PascalJvm
