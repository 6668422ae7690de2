import Mathlib.Tactic
import PascalJvm.Proofs.Operators
import PascalJvm.Proofs.Store

/-!
# The meaning of statements

Expressions without calls have a value in a store, and statements take one store to the next.
Operands are evaluated from left to right, both of them always. Integers have 32 bits and wrap
around; division truncates, and an integer becomes real where the other operand, or the variable
that it is stored in, is. A `for` statement evaluates its limit again before every round, and
steps its counter by one. What floating-point operations and the comparison of texts give is up
to the host.

On well-typed trees and stores nothing gets stuck, and every statement keeps the shape of the
store. The number of rounds that a loop may take is a parameter, but no result depends on it.
-/
namespace PascalJvm

namespace Typed

mutual

/-- No routine is called. -/
def Expr.callFree : Expr → Bool
  | .call .. => false
  | .read _ place _ => place.callFree
  | .unary _ _ x => x.callFree
  | .binary _ _ a b => a.callFree && b.callFree
  | _ => true

def Place.callFree : Place → Bool
  | .root _ => true
  | .field base _ _ _ => base.callFree
  | .element base index _ _ => base.callFree && index.callFree

end

mutual

/-- No routine is called, and nothing is read or written. -/
def Stmt.callFree : Stmt → Bool
  | .empty => true
  | .compound body => allCallFree body
  | .assign target value => target.place.callFree && value.callFree
  | .ifThen cond yes no => cond.callFree && yes.callFree && optionalCallFree no
  | .caseOf selector branches otherwise =>
      selector.callFree && armsCallFree branches && optionalCallFree otherwise
  | .repeatUntil body cond => allCallFree body && cond.callFree
  | .whileDo cond body => cond.callFree && body.callFree
  | .forDo counter first last _ body =>
      counter.place.callFree && first.callFree && last.callFree && body.callFree
  | _ => false

def allCallFree : List Stmt → Bool
  | [] => true
  | c :: cs => c.callFree && allCallFree cs

def optionalCallFree : Option Stmt → Bool
  | none => true
  | some c => c.callFree

def armsCallFree : List (List Int32 × Stmt) → Bool
  | [] => true
  | (_, c) :: rest => c.callFree && armsCallFree rest

end

end Typed

namespace Run

open Jvm Typed

/-- What is left to the host. A comparison is negative, zero or positive. -/
structure Host where
  add : Single → Single → Single
  sub : Single → Single → Single
  mul : Single → Single → Single
  div : Single → Single → Single
  neg : Single → Single
  ofInt : Int32 → Single
  compareReals : Single → Single → Int32
  compareTexts : String → String → Int32

def ofBool (b : Bool) : Int32 := if b then 1 else 0

/-- The comparison that an operator stands for. -/
def orders : BinOp → Option (Int32 → Int32 → Bool)
  | .eq => some fun a b => a = b
  | .ne => some fun a b => a ≠ b
  | .lt => some fun a b => a < b
  | .le => some fun a b => a ≤ b
  | .gt => some fun a b => b < a
  | .ge => some fun a b => b ≤ a
  | _ => none

def asInt : Value → Eval Int32
  | .int i => .ok i
  | _ => .error .stuck

def asRef : Value → Eval Nat
  | .ref a => .ok a
  | _ => .error .stuck

/-- A number as a real. -/
def asReal (host : Host) : Value → Eval Single
  | .int i => .ok (host.ofInt i)
  | .real x => .ok x
  | _ => .error .stuck

/-- An operator on two integers, or on two truth values, which are 1 and 0. -/
def onInts (a b : Int32) : BinOp → Eval Int32
  | .add => .ok (a + b)
  | .sub => .ok (a - b)
  | .mul => .ok (a * b)
  | .intDiv => if b = 0 then .error (.trap .divisionByZero) else .ok (a / b)
  | .mod => if b = 0 then .error (.trap .divisionByZero) else .ok (a % b)
  | .and => .ok (a &&& b)
  | .or => .ok (a ||| b)
  | _ => .error .stuck

def onReals (host : Host) (x y : Single) : BinOp → Eval Single
  | .add => .ok (host.add x y)
  | .sub => .ok (host.sub x y)
  | .mul => .ok (host.mul x y)
  | .div => .ok (host.div x y)
  | _ => .error .stuck

def onNumbers (host : Host) (op : BinOp) (v w : Value) : Eval Value := do
  let x ← asReal host v
  let y ← asReal host w
  return .real (← onReals host x y op)

def arithmetic (host : Host) : BinOp → Value → Value → Eval Value
  | .div, v, w => onNumbers host .div v w
  | op, .int a, .int b => do return .int (← onInts a b op)
  | op, v, w => onNumbers host op v w

def compare (host : Host) (related : Int32 → Int32 → Bool) : Value → Value → Eval Bool
  | .int a, .int b => .ok (related a b)
  | .text a, .text b => .ok (related (host.compareTexts a b) 0)
  | v, w => do
      let x ← asReal host v
      let y ← asReal host w
      return related (host.compareReals x y) 0

def binary (host : Host) (op : BinOp) (v w : Value) : Eval Value :=
  match orders op with
  | some related => do return .int (ofBool (← compare host related v w))
  | none => arithmetic host op v w

def unary (host : Host) : UnOp → Value → Eval Value
  | .neg, .int i => .ok (.int (-i))
  | .neg, .real x => .ok (.real (host.neg x))
  | .not, .int i => .ok (.int (i ^^^ 1))
  | _, _ => .error .stuck

/-- On truth values the operations on bits are the logical ones. -/
theorem onInts_ofBool (a b : Bool) :
    onInts (ofBool a) (ofBool b) .and = .ok (ofBool (a && b)) ∧
      onInts (ofBool a) (ofBool b) .or = .ok (ofBool (a || b)) := by
  cases a <;> cases b <;> exact ⟨rfl, rfl⟩

theorem unary_not_ofBool (host : Host) (a : Bool) :
    unary host .not (.int (ofBool a)) = .ok (.int (ofBool !a)) := by
  cases a <;> rfl

mutual

/-- The value of an expression. -/
def eval (host : Host) (σ : Store) : Expr → Eval Value
  | .int _ i => .ok (.int i)
  | .real _ x => .ok (.real x)
  | .text _ s => .ok (.text s)
  | .read _ place _ => do σ.read (← locate host σ place)
  | .call .. => .error .stuck
  | .unary _ op x => do unary host op (← eval host σ x)
  | .binary _ op a b => do
      let v ← eval host σ a
      let w ← eval host σ b
      binary host op v w

/-- Where a place is. -/
def locate (host : Host) (σ : Store) : Place → Eval Location
  | .root ⟨_, .static name, _⟩ => .ok (.static name)
  | .root ⟨_, .slot n, _⟩ => .ok (.slot n)
  | .root ⟨_, .cell n, _⟩ => do return .element (← asRef (← σ.read (.slot n))) 0
  | .field base _ name _ => do
      let record ← asRef (← σ.read (← locate host σ base))
      return .field record name
  | .element base index low _ => do
      let array ← asRef (← σ.read (← locate host σ base))
      let i ← asInt (← eval host σ index)
      return .element array (i.toInt - low.toInt)

end

/-- A value as it is stored in a variable of type `t`: an integer becomes real. -/
def widened (host : Host) (t : Ty) (v : Value) : Eval Value :=
  if t.is .real then do return .real (← asReal host v) else .ok v

def assign (host : Host) (target : Designator) (value : Expr) (σ : Store) : Eval Store := do
  let loc ← locate host σ target.place
  let v ← eval host σ value
  let w ← widened host target.ty v
  σ.write (.ofTy target.ty) w loc

def isTrue (host : Host) (cond : Expr) (σ : Store) : Eval Bool := do
  return (← asInt (← eval host σ cond)) ≠ 0

/-- Repeat a round as long as it says so. -/
def iterate (round : Store → Eval (Store × Bool)) : Nat → Store → Eval Store
  | 0, _ => .error .timeout
  | fuel + 1, σ => do
      let (τ, again) ← round σ
      if again then iterate round fuel τ else return τ

/-- The counter is past the limit. -/
def passed (down : Bool) (limit counter : Int32) : Bool :=
  if down then counter < limit else limit < counter

def counterValue (host : Host) (counter : Designator) (σ : Store) : Eval Int32 := do
  asInt (← σ.read (← locate host σ counter.place))

def advance (host : Host) (counter : Designator) (down : Bool) (σ : Store) : Eval Store := do
  let loc ← locate host σ counter.place
  let i ← counterValue host counter σ
  σ.write (.ofTy counter.ty) (.int (if down then i - 1 else i + 1)) loc

def repeatRound (host : Host) (body : Store → Eval Store) (cond : Expr) (σ : Store) :
    Eval (Store × Bool) := do
  let τ ← body σ
  return (τ, !(← isTrue host cond τ))

def whileRound (host : Host) (cond : Expr) (body : Store → Eval Store) (σ : Store) :
    Eval (Store × Bool) := do
  if ← isTrue host cond σ then return (← body σ, true) else return (σ, false)

def forRound (host : Host) (counter : Designator) (last : Expr) (down : Bool)
    (body : Store → Eval Store) (σ : Store) : Eval (Store × Bool) := do
  let limit ← asInt (← eval host σ last)
  let i ← counterValue host counter σ
  if passed down limit i then return (σ, false)
  else return (← advance host counter down (← body σ), true)

mutual

/-- What a statement does to the store. Each run of a loop has `fuel` rounds. -/
def exec (host : Host) (fuel : Nat) : Stmt → Store → Eval Store
  | .empty, σ => .ok σ
  | .compound body, σ => execAll host fuel body σ
  | .assign target value, σ => assign host target value σ
  | .ifThen cond yes no, σ => do
      if ← isTrue host cond σ then exec host fuel yes σ else execOptional host fuel no σ
  | .caseOf selector branches otherwise, σ => do
      let i ← asInt (← eval host σ selector)
      (execBranch host fuel i branches σ).getD (execOptional host fuel otherwise σ)
  | .repeatUntil body cond, σ =>
      iterate (repeatRound host (execAll host fuel body) cond) fuel σ
  | .whileDo cond body, σ => iterate (whileRound host cond (exec host fuel body)) fuel σ
  | .forDo counter first last down body, σ => do
      let σ ← assign host counter first σ
      iterate (forRound host counter last down (exec host fuel body)) fuel σ
  | _, _ => .error .stuck

def execAll (host : Host) (fuel : Nat) : List Stmt → Store → Eval Store
  | [], σ => .ok σ
  | c :: cs, σ => do execAll host fuel cs (← exec host fuel c σ)

def execOptional (host : Host) (fuel : Nat) : Option Stmt → Store → Eval Store
  | none, σ => .ok σ
  | some c, σ => exec host fuel c σ

/-- The branch for a value; of several, the last one. -/
def execBranch (host : Host) (fuel : Nat) (i : Int32) :
    List (List Int32 × Stmt) → Store → Option (Eval Store)
  | [], _ => none
  | (constants, c) :: rest, σ =>
      (execBranch host fuel i rest σ).or
        (if i ∈ constants then some (exec host fuel c σ) else none)

end

section

variable {α β : Type}

/-- The computation is not stuck, and its result has the property. -/
def Safe (P : α → Prop) : Eval α → Prop
  | .ok a => P a
  | .error .stuck => False
  | .error _ => True

lemma Safe.of_ok {P : α → Prop} {x : Eval α} {a : α} (h : Safe P x) (hx : x = .ok a) : P a := by
  rw [hx] at h
  exact h

lemma Safe.ne_stuck {P : α → Prop} {x : Eval α} (h : Safe P x) : x ≠ .error .stuck := by
  rintro rfl
  exact h

lemma Safe.mono {P Q : α → Prop} {x : Eval α} (h : Safe P x) (hPQ : ∀ a, P a → Q a) : Safe Q x := by
  match x, h with
  | .ok a, h => exact hPQ a h
  | .error (.trap _), _ => trivial
  | .error .timeout, _ => trivial

lemma Safe.bind {P : α → Prop} {Q : β → Prop} {x : Eval α} {f : α → Eval β} (h : Safe P x)
    (hf : ∀ a, P a → Safe Q (f a)) : Safe Q (x >>= f) := by
  match x, h with
  | .ok a, h => exact hf a h
  | .error (.trap _), _ => trivial
  | .error .timeout, _ => trivial

end

section

variable {heap : Heap} {t u : Ty} {v : Value}

lemma HasTy.eq_int (h : HasTy heap t v) (ht : t.isOrdinal = true) : ∃ i, v = .int i := by
  cases t with
  | basic b => cases b <;> cases v <;> simp_all [HasTy, Ty.isOrdinal]
  | enum name => cases v <;> simp_all [HasTy]
  | _ => cases ht

lemma hasTy_int (ht : t.isOrdinal = true) (i : Int32) : HasTy heap t (.int i) := by
  cases t with
  | basic b => cases b <;> simp_all [HasTy, Ty.isOrdinal]
  | enum name => simp [HasTy]
  | _ => cases ht

lemma HasTy.eq_real (h : HasTy heap .real v) : ∃ x, v = .real x := by
  cases v <;> simp_all [HasTy]

lemma HasTy.eq_text (h : HasTy heap .string v) : ∃ s, v = .text s := by
  cases v <;> simp_all [HasTy]

/-- A number is a real, or an integer. -/
lemma HasTy.number (h : HasTy heap t v) (ht : t.isNumeric = true) :
    (t = .real ∧ ∃ x, v = .real x) ∨ (t = .integer ∧ ∃ i, v = .int i) := by
  rcases Ty.isNumeric_iff.mp ht with rfl | rfl
  · exact .inr ⟨rfl, h.eq_int rfl⟩
  · exact .inl ⟨rfl, h.eq_real⟩

lemma HasTy.eq_ref (h : HasTy heap t v) (ht : t.isAggregate = true) : ∃ a, v = .ref a := by
  cases t <;> cases v <;> simp_all [HasTy, Ty.isAggregate]

lemma HasTy.retypes (h : HasTy heap t v) (htu : t.Retypes u) : HasTy heap u v := by
  rcases htu with rfl | ⟨ht, hu⟩
  · exact h
  · obtain ⟨i, rfl⟩ := h.eq_int ht
    exact hasTy_int hu i

end

section

variable {host : Host} {heap : Heap} {a b r t : Ty} {v w : Value} {op : BinOp}

lemma asReal_safe (hv : HasTy heap t v) (ht : t.isNumeric = true) :
    Safe (fun _ => True) (asReal host v) := by
  rcases hv.number ht with ⟨-, x, rfl⟩ | ⟨-, i, rfl⟩ <;> trivial

/-- Arithmetic on reals, as soon as one operand is real or the operator is `/`. -/
lemma arithmetic_of_real (hv : HasTy heap a v) (hw : HasTy heap b w)
    (h : op = .div ∨ a = .real ∨ b = .real) : arithmetic host op v w = onNumbers host op v w := by
  rcases h with rfl | rfl | rfl
  · rw [arithmetic]
  · obtain ⟨x, rfl⟩ := hv.eq_real
    cases op <;> rfl
  · obtain ⟨y, rfl⟩ := hw.eq_real
    cases op <;> cases v <;> rfl

lemma arithmetic_of_int (i j : Int32) (h : op ≠ .div) :
    arithmetic host op (.int i) (.int j) = (do return .int (← onInts i j op)) := by
  cases op <;> first | rfl | exact absurd rfl h

lemma onInts_safe (i j : Int32) (hop : op = .add ∨ op = .sub ∨ op = .mul ∨ op = .intDiv ∨
    op = .mod ∨ op = .and ∨ op = .or) : Safe (fun _ => True) (onInts i j op) := by
  rcases hop with rfl | rfl | rfl | rfl | rfl | rfl | rfl <;> simp only [onInts]
  case inr.inr.inr.inl | inr.inr.inr.inr.inl => split <;> trivial
  all_goals trivial

lemma compare_of_real (related : Int32 → Int32 → Bool) (hv : HasTy heap a v) (hw : HasTy heap b w)
    (h : a = .real ∨ b = .real) :
    compare host related v w = (do
      let x ← asReal host v
      let y ← asReal host w
      return related (host.compareReals x y) 0) := by
  rcases h with rfl | rfl
  · obtain ⟨x, rfl⟩ := hv.eq_real
    rfl
  · obtain ⟨y, rfl⟩ := hw.eq_real
    cases v <;> rfl

lemma orders_eq_none (h : Emit.relation? op = none) : orders op = none := by
  cases op <;> first | rfl | cases h

lemma orders_isSome {rel : Relation} (h : Emit.relation? op = some rel) :
    ∃ related, orders op = some related := by
  cases op <;> first | exact ⟨_, rfl⟩ | cases h

lemma compare_safe (related : Int32 → Int32 → Bool) (h : Check.comparable a b = true)
    (hv : HasTy heap a v) (hw : HasTy heap b w) :
    Safe (fun _ => True) (compare host related v w) := by
  rcases Emit.compare_cases h with ⟨-, ha, hb, hreal, -⟩ | ⟨-, rfl, rfl, -⟩ | ⟨-, ha, hb, -⟩
  · rw [compare_of_real related hv hw hreal]
    exact (asReal_safe hv ha).bind fun x _ => (asReal_safe hw hb).bind fun y _ => trivial
  · obtain ⟨x, rfl⟩ := hv.eq_text
    obtain ⟨y, rfl⟩ := hw.eq_text
    exact trivial
  · obtain ⟨i, rfl⟩ := hv.eq_int ha
    obtain ⟨j, rfl⟩ := hw.eq_int hb
    exact trivial

lemma arithmetic_safe (h : Check.Operands op a b r) (hop : Emit.relation? op = none)
    (ht : r.Retypes t) (hv : HasTy heap a v) (hw : HasTy heap b w) :
    Safe (HasTy heap t) (arithmetic host op v w) := by
  rcases Emit.operatorKind_cases h hop ht with ⟨-, ha, hb, rfl, hops, hreal⟩ |
    ⟨-, rfl, rfl, hord, hops⟩ | ⟨-, rfl, rfl, hord, hops⟩
  · rw [arithmetic_of_real hv hw hreal]
    refine (asReal_safe hv ha).bind fun x _ => (asReal_safe hw hb).bind fun y _ => ?_
    rcases hops with rfl | rfl | rfl | rfl <;> exact trivial
  all_goals
    obtain ⟨i, rfl⟩ := hv.eq_int rfl
    obtain ⟨j, rfl⟩ := hw.eq_int rfl
    rw [arithmetic_of_int i j (by rintro rfl; simp at hops)]
    exact (onInts_safe i j (by tauto)).bind fun k _ => hasTy_int hord k

lemma binary_safe (h : Check.Operands op a b r) (ht : r.Retypes t) (hv : HasTy heap a v)
    (hw : HasTy heap b w) : Safe (HasTy heap t) (binary host op v w) := by
  unfold binary
  cases hop : Emit.relation? op with
  | none =>
    rw [orders_eq_none hop]
    exact arithmetic_safe h hop ht hv hw
  | some rel =>
    obtain ⟨related, hrelated⟩ := orders_isSome hop
    obtain ⟨hcomp, rfl⟩ := h.of_relation hop
    rw [hrelated]
    exact (compare_safe related hcomp hv hw).bind fun b _ =>
      HasTy.retypes (hasTy_int (t := .boolean) rfl _) ht

end

section

variable {host : Host} {σ : Store} {Γ : Variables}

lemma read_safe {t : Ty} {loc : Location} (h : loc.Holds σ t) :
    Safe (HasTy σ.heap t) (σ.read loc) := by
  rcases read_of_holds h with ⟨v, hv, hty⟩ | h <;> simp_all [Safe]

lemma root_safe (hσ : σ.WellTyped Γ.statics Γ.slots) (s : Symbol) (h : s.Declared Γ) :
    Safe (Location.Holds σ s.ty) (locate host σ (.root s)) := by
  obtain ⟨name, storage, ty⟩ := s
  cases storage with
  | static name => exact hσ.statics h
  | slot n => exact hσ.slots h
  | cell n =>
    obtain ⟨v, hv, hty⟩ := hσ.slots h
    obtain ⟨a, rfl⟩ := HasTy.eq_ref hty rfl
    rw [ParamHasTy, HasTy] at hty
    obtain ⟨es, hes, hlen, hty⟩ := hty
    simp only [locate, Store.read, hv, Store.orStuck]
    exact ⟨es, hes, hty, by omega, by omega, by omega⟩

mutual

/-- A well-typed expression has a value of its type, unless it traps. -/
theorem eval_safe (hσ : σ.WellTyped Γ.statics Γ.slots) : (e : Expr) → (h : e.WellTyped Γ) →
    (hfree : e.callFree = true) → Safe (HasTy σ.heap e.ty) (eval host σ e)
  | .int t i, h, _ => hasTy_int h i
  | .real t x, h, _ => by
    obtain rfl : t = .real := h
    rw [eval]
    exact trivial
  | .text t s, h, _ => by
    obtain rfl : t = .string := h
    rw [eval]
    exact trivial
  | .read t place placeTy, ⟨hplace, hty, hr⟩, hfree => by
    subst hty
    rw [eval]
    exact (locate_safe hσ place hplace hfree).bind fun loc hloc =>
      (read_safe hloc).mono fun v hv => hv.retypes hr
  | .unary t .neg x, ⟨hx, hnum, hr⟩, hfree => by
    rw [eval]
    refine (eval_safe hσ x hx hfree).bind fun v hv => ?_
    rcases hv.number hnum with ⟨hty, y, rfl⟩ | ⟨hty, i, rfl⟩ <;> rw [hty] at hr
    · exact HasTy.retypes (t := .real) (v := .real (host.neg y)) trivial hr
    · exact HasTy.retypes (hasTy_int rfl (-i)) hr
  | .unary t .not x, ⟨hx, hbool, hr⟩, hfree => by
    rw [eval]
    refine (eval_safe hσ x hx hfree).bind fun v hv => ?_
    rw [hbool] at hv hr
    obtain ⟨i, rfl⟩ := hv.eq_int rfl
    exact HasTy.retypes (hasTy_int rfl (i ^^^ 1)) hr
  | .binary t op a b, ⟨ha, hb, r, hty, hr⟩, hfree => by
    rw [eval]
    rw [Expr.callFree, Bool.and_eq_true_iff] at hfree
    exact (eval_safe hσ a ha hfree.1).bind fun v hv => (eval_safe hσ b hb hfree.2).bind fun w hw =>
      binary_safe (Check.operands_of_binaryTy hty) hr hv hw

/-- A well-typed place is found, unless an index on the way is out of bounds. -/
theorem locate_safe (hσ : σ.WellTyped Γ.statics Γ.slots) : (p : Place) → (h : p.WellTyped Γ) →
    (hfree : p.callFree = true) → Safe (Location.Holds σ p.ty) (locate host σ p)
  | .root s, h, _ => root_safe hσ s h
  | .field base record name t, ⟨hbase, fields, hty, hname⟩, hfree => by
    rw [locate]
    refine (locate_safe hσ base hbase hfree).bind fun loc hloc =>
      (read_safe hloc).bind fun v hv => ?_
    rw [hty] at hv
    obtain ⟨a, rfl⟩ := hv.eq_ref rfl
    rw [HasTy] at hv
    obtain ⟨fs, hfs, hfields⟩ := hv
    obtain ⟨v, hv, hvty⟩ := hfields.lookup hname
    exact ⟨fs, v, hfs, hv, hvty⟩
  | .element base index low elem, ⟨hbase, hindex, hord, len, hty⟩, hfree => by
    have hvalid := hbase.valid
    rw [locate]
    rw [Place.callFree, Bool.and_eq_true_iff] at hfree
    refine (locate_safe hσ base hbase hfree.1).bind fun loc hloc =>
      (read_safe hloc).bind fun v hv => ?_
    rw [hty] at hv hvalid
    obtain ⟨a, rfl⟩ := hv.eq_ref rfl
    rw [HasTy] at hv
    obtain ⟨es, hes, hlen, hv⟩ := hv
    refine (eval_safe hσ index hindex hfree.2).bind fun w hw => ?_
    obtain ⟨i, rfl⟩ := hw.eq_int hord
    obtain ⟨hlast, hlength, -⟩ := hvalid
    have hi := i.toInt_lt
    have hi' := i.le_toInt
    have hlow := low.toInt_lt
    have hlow' := low.le_toInt
    exact ⟨es, hes, hv, by omega, by omega, by omega⟩

end

lemma isTrue_safe (hσ : σ.WellTyped Γ.statics Γ.slots) {cond : Expr} (h : cond.Condition Γ)
    (hfree : cond.callFree = true) : Safe (fun _ => True) (isTrue host cond σ) := by
  refine (eval_safe hσ cond h.wellTyped hfree).bind fun v hv => ?_
  obtain ⟨i, rfl⟩ := hv.eq_int (by rw [h.ty_eq]; rfl)
  trivial

lemma widened_safe {heap : Heap} {t u : Ty} {v : Value} (h : t.accepts u = true)
    (ht : t.isAggregate = false) (hv : HasTy heap u v) :
    Safe (HasTy heap t) (widened host t v) := by
  unfold widened
  rcases Ty.accepts_cases h with hsame | ⟨rfl, rfl⟩
  · obtain rfl := Ty.eq_of_same hsame ht
    split_ifs with hreal
    · obtain rfl := Ty.eq_basic_of_is hreal
      obtain ⟨x, rfl⟩ := hv.eq_real
      trivial
    · exact hv
  · obtain ⟨i, rfl⟩ := hv.eq_int rfl
    trivial

lemma write_safe {k : Kind} {t : Ty} {v : Value} {loc : Location} (h : loc.Holds σ t)
    (ht : t.isAggregate = false) (hv : HasTy σ.heap t v) : Safe σ.Alike (σ.write k v loc) := by
  rcases write_of_holds (k := k) h ht hv with ⟨τ, hτ, halike⟩ | h <;> simp_all [Safe]

lemma assign_safe (hσ : σ.WellTyped Γ.statics Γ.slots) {target : Designator} {value : Expr}
    (htarget : target.WellTyped Γ) (hvalue : value.WellTyped Γ)
    (hscalar : target.ty.isAggregate = false) (haccepts : target.ty.accepts value.ty = true)
    (hplace : target.place.callFree = true) (hfree : value.callFree = true) :
    Safe σ.Alike (assign host target value σ) := by
  refine (locate_safe hσ _ htarget.place hplace).bind fun loc hloc =>
    (eval_safe hσ value hvalue hfree).bind fun v hv =>
      (widened_safe haccepts hscalar hv).bind fun w hw => ?_
  rw [← htarget.ty_eq] at hloc
  exact write_safe hloc hscalar hw

lemma counterValue_safe (hσ : σ.WellTyped Γ.statics Γ.slots) {counter : Designator}
    (h : counter.WellTyped Γ) (hord : counter.ty.isOrdinal = true)
    (hfree : counter.place.callFree = true) :
    Safe (fun _ => True) (counterValue host counter σ) := by
  refine (locate_safe hσ _ h.place hfree).bind fun loc hloc => (read_safe hloc).bind fun v hv => ?_
  rw [← h.ty_eq] at hv
  obtain ⟨i, rfl⟩ := hv.eq_int hord
  trivial

lemma advance_safe (hσ : σ.WellTyped Γ.statics Γ.slots) {counter : Designator}
    (h : counter.WellTyped Γ) (hord : counter.ty.isOrdinal = true)
    (hfree : counter.place.callFree = true) (down : Bool) :
    Safe σ.Alike (advance host counter down σ) := by
  refine (locate_safe hσ _ h.place hfree).bind fun loc hloc =>
    (counterValue_safe hσ h hord hfree).bind fun i _ => ?_
  rw [← h.ty_eq] at hloc
  exact write_safe hloc (Ty.isAggregate_of_isOrdinal hord) (hasTy_int hord _)

end

/-- A well-typed store is taken to one of the same shape, unless there is a trap or no end. -/
def KeepsShape (Γ : Variables) (f : Store → Eval Store) : Prop :=
  ∀ ⦃σ : Store⦄, σ.WellTyped Γ.statics Γ.slots → Safe σ.Alike (f σ)

/-- The same of a round of a loop. -/
def RoundKeepsShape (Γ : Variables) (round : Store → Eval (Store × Bool)) : Prop :=
  ∀ ⦃σ : Store⦄, σ.WellTyped Γ.statics Γ.slots → Safe (fun r => σ.Alike r.1) (round σ)

section

variable {host : Host} {Γ : Variables} {cond : Expr} {body : Store → Eval Store}

lemma KeepsShape.bind {f g : Store → Eval Store} (hf : KeepsShape Γ f) (hg : KeepsShape Γ g) :
    KeepsShape Γ fun σ => f σ >>= g := by
  intro σ hσ
  exact (hf hσ).bind fun τ hτ => (hg (hσ.alike hτ)).mono fun _ => hτ.trans

lemma RoundKeepsShape.iterate {round : Store → Eval (Store × Bool)} (h : RoundKeepsShape Γ round)
    (fuel : Nat) : KeepsShape Γ (iterate round fuel) := by
  induction fuel with
  | zero => exact fun _ _ => trivial
  | succ fuel ih =>
    intro σ hσ
    refine (h hσ).bind fun (τ, again) hτ => ?_
    dsimp only
    split_ifs
    · exact (ih (hσ.alike hτ)).mono fun _ => hτ.trans
    · exact hτ

lemma repeatRound_safe (hbody : KeepsShape Γ body) (hcond : cond.Condition Γ)
    (hfree : cond.callFree = true) : RoundKeepsShape Γ (repeatRound host body cond) := by
  intro σ hσ
  exact (hbody hσ).bind fun τ hτ => (isTrue_safe (hσ.alike hτ) hcond hfree).bind fun _ _ => hτ

lemma whileRound_safe (hcond : cond.Condition Γ) (hfree : cond.callFree = true)
    (hbody : KeepsShape Γ body) : RoundKeepsShape Γ (whileRound host cond body) := by
  intro σ hσ
  refine (isTrue_safe hσ hcond hfree).bind fun b _ => ?_
  split_ifs
  · exact (hbody hσ).bind fun τ hτ => hτ
  · exact Store.Alike.refl σ

lemma forRound_safe {counter : Designator} {last : Expr} (h : counter.WellTyped Γ)
    (hord : counter.ty.isOrdinal = true) (hfree : counter.place.callFree = true)
    (hlast : last.WellTyped Γ) (hlastOrd : last.ty.isOrdinal = true)
    (hlastFree : last.callFree = true) (down : Bool) (hbody : KeepsShape Γ body) :
    RoundKeepsShape Γ (forRound host counter last down body) := by
  intro σ hσ
  refine (eval_safe hσ last hlast hlastFree).bind fun v hv => ?_
  obtain ⟨limit, rfl⟩ := hv.eq_int hlastOrd
  refine (counterValue_safe hσ h hord hfree).bind fun i _ => ?_
  split_ifs
  · exact Store.Alike.refl σ
  · refine (hbody hσ).bind fun τ hτ => ?_
    exact (advance_safe (hσ.alike hτ) h hord hfree down).bind fun υ hυ => hτ.trans hυ

mutual

/-- A well-typed statement without calls is never stuck, and keeps the shape of the store. -/
theorem exec_safe (fuel : Nat) : (c : Stmt) → (h : c.WellTyped Γ) → (hfree : c.callFree = true) →
    KeepsShape Γ (exec host fuel c)
  | .empty, _, _ => fun σ _ => Store.Alike.refl σ
  | .compound body, h, hfree => execAll_safe fuel body h hfree
  | .assign target value, ⟨htarget, hvalue, hscalar, haccepts⟩, hfree => by
    rw [Stmt.callFree, Bool.and_eq_true_iff] at hfree
    exact fun σ hσ => assign_safe hσ htarget hvalue hscalar haccepts hfree.1 hfree.2
  | .ifThen cond yes no, ⟨hcond, hyes, hno⟩, hfree => by
    simp only [Stmt.callFree, Bool.and_eq_true] at hfree
    obtain ⟨⟨hfc, hfy⟩, hfn⟩ := hfree
    intro σ hσ
    rw [exec]
    refine (isTrue_safe hσ hcond hfc).bind fun b _ => ?_
    split_ifs
    · exact exec_safe fuel yes hyes hfy hσ
    · exact execOptional_safe fuel no hno hfn hσ
  | .caseOf selector branches otherwise, ⟨hsel, hord, hbranches, hother⟩, hfree => by
    simp only [Stmt.callFree, Bool.and_eq_true] at hfree
    obtain ⟨⟨hfs, hfb⟩, hfo⟩ := hfree
    intro σ hσ
    rw [exec]
    refine (eval_safe hσ selector hsel hfs).bind fun v hv => ?_
    obtain ⟨i, rfl⟩ := hv.eq_int hord
    change Safe σ.Alike ((execBranch host fuel i branches σ).getD _)
    cases hx : execBranch host fuel i branches σ with
    | none => exact execOptional_safe fuel otherwise hother hfo hσ
    | some x => exact execBranch_safe fuel i branches hbranches hfb hσ hx
  | .repeatUntil body cond, ⟨hbody, hcond⟩, hfree => by
    rw [Stmt.callFree, Bool.and_eq_true_iff] at hfree
    exact (repeatRound_safe (execAll_safe fuel body hbody hfree.1) hcond hfree.2).iterate fuel
  | .whileDo cond body, ⟨hcond, hbody⟩, hfree => by
    rw [Stmt.callFree, Bool.and_eq_true_iff] at hfree
    exact (whileRound_safe hcond hfree.1 (exec_safe fuel body hbody hfree.2)).iterate fuel
  | .forDo counter first last down body, ⟨hcounter, hord, hfirst, hsame, hlast, hsame', hbody, _⟩,
      hfree => by
    simp only [Stmt.callFree, Bool.and_eq_true] at hfree
    obtain ⟨⟨⟨hfc, hff⟩, hfl⟩, hfb⟩ := hfree
    have hassign : KeepsShape Γ (assign host counter first) := fun σ hσ =>
      assign_safe hσ hcounter hfirst (Ty.isAggregate_of_isOrdinal hord) (Ty.accepts_of_same hsame)
        hfc hff
    exact hassign.bind ((forRound_safe hcounter hord hfc hlast (Ty.isOrdinal_of_same hsame' hord) hfl
      down (exec_safe fuel body hbody hfb)).iterate fuel)

theorem execAll_safe (fuel : Nat) : (cs : List Stmt) → (h : StmtsWellTyped Γ cs) →
    (hfree : allCallFree cs = true) → KeepsShape Γ (execAll host fuel cs)
  | [], _, _ => fun σ _ => Store.Alike.refl σ
  | c :: cs, ⟨hc, hcs⟩, hfree => by
    rw [allCallFree, Bool.and_eq_true_iff] at hfree
    exact (exec_safe fuel c hc hfree.1).bind (execAll_safe fuel cs hcs hfree.2)

theorem execOptional_safe (fuel : Nat) : (c : Option Stmt) → (h : OptionalWellTyped Γ c) →
    (hfree : optionalCallFree c = true) → KeepsShape Γ (execOptional host fuel c)
  | none, _, _ => fun σ _ => Store.Alike.refl σ
  | some c, h, hfree => exec_safe fuel c h hfree

theorem execBranch_safe (fuel : Nat) (i : Int32) : (branches : List (List Int32 × Stmt)) →
    (h : ArmsWellTyped Γ branches) → (hfree : armsCallFree branches = true) → {σ : Store} →
    (hσ : σ.WellTyped Γ.statics Γ.slots) → {x : Eval Store} →
    (hx : execBranch host fuel i branches σ = some x) → Safe σ.Alike x
  | (constants, c) :: rest, ⟨_, hc, hrest⟩, hfree, σ, hσ, x, hx => by
    rw [armsCallFree, Bool.and_eq_true_iff] at hfree
    rw [execBranch, Option.or_eq_some_iff] at hx
    rcases hx with hx | ⟨-, hx⟩
    · exact execBranch_safe fuel i rest hrest hfree.2 hσ hx
    · split_ifs at hx
      cases hx
      exact exec_safe fuel c hc hfree.1 hσ

end

end

/-- The second computation has the result of the first, if that one had rounds enough. -/
def Extends {α : Type} (x y : Eval α) : Prop := x = .error .timeout ∨ x = y

section

variable {α β : Type} {host : Host}

lemma Extends.refl (x : Eval α) : Extends x x := .inr rfl

lemma Extends.bind {x y : Eval α} {f g : α → Eval β} (h : Extends x y)
    (hfg : ∀ a, Extends (f a) (g a)) : Extends (x >>= f) (y >>= g) := by
  rcases h with rfl | rfl
  · exact .inl rfl
  · cases x with
    | error e => exact .refl _
    | ok a => exact hfg a

lemma Extends.ite {b : Bool} {x x' y y' : Eval α} (h : Extends x y) (h' : Extends x' y') :
    Extends (if b then x else x') (if b then y else y') := by
  cases b with
  | true => exact h
  | false => exact h'

lemma Extends.iterate {round round' : Store → Eval (Store × Bool)}
    (h : ∀ σ, Extends (round σ) (round' σ)) {n m : Nat} (hnm : n ≤ m) (σ : Store) :
    Extends (iterate round n σ) (iterate round' m σ) := by
  induction n generalizing m σ with
  | zero => exact .inl rfl
  | succ n ih =>
    obtain ⟨m, rfl⟩ : ∃ k, m = k + 1 := ⟨m - 1, by omega⟩
    exact (h σ).bind fun r => .ite (ih (by omega) r.1) (.refl _)

mutual

/-- A statement that ends or traps does the same with more rounds for each loop. -/
theorem exec_extends {n m : Nat} (hnm : n ≤ m) : (c : Stmt) → (σ : Store) →
    Extends (exec host n c σ) (exec host m c σ)
  | .empty, σ => .refl _
  | .compound body, σ => execAll_extends hnm body σ
  | .assign target value, σ => .refl _
  | .ifThen cond yes no, σ => by
    rw [exec, exec]
    exact (Extends.refl _).bind fun b =>
      .ite (exec_extends hnm yes σ) (execOptional_extends hnm no σ)
  | .caseOf selector branches otherwise, σ => by
    rw [exec, exec]
    refine (Extends.refl _).bind fun v => (Extends.refl _).bind fun i => ?_
    rcases execBranch_extends hnm i branches σ with ⟨h, h'⟩ | ⟨x, y, h, h', hxy⟩ <;> rw [h, h']
    · exact execOptional_extends hnm otherwise σ
    · exact hxy
  | .repeatUntil body cond, σ =>
    .iterate (fun τ => (execAll_extends hnm body τ).bind fun υ => .refl _) hnm σ
  | .whileDo cond body, σ =>
    .iterate (fun τ => (Extends.refl _).bind fun b =>
      .ite ((exec_extends hnm body τ).bind fun υ => .refl _) (.refl _)) hnm σ
  | .forDo counter first last down body, σ => by
    rw [exec, exec]
    refine (Extends.refl _).bind fun σ₁ => .iterate (fun τ => ?_) hnm σ₁
    refine (Extends.refl _).bind fun v => (Extends.refl _).bind fun limit =>
      (Extends.refl _).bind fun i => .ite (.refl _) ?_
    exact (exec_extends hnm body τ).bind fun υ => .refl _
  | .procedureCall .., σ | .functionCall .., σ | .write .., σ | .read .., σ => .refl _

theorem execAll_extends {n m : Nat} (hnm : n ≤ m) : (cs : List Stmt) → (σ : Store) →
    Extends (execAll host n cs σ) (execAll host m cs σ)
  | [], σ => .refl _
  | c :: cs, σ => by
    rw [execAll, execAll]
    exact (exec_extends hnm c σ).bind fun τ => execAll_extends hnm cs τ

theorem execOptional_extends {n m : Nat} (hnm : n ≤ m) : (c : Option Stmt) → (σ : Store) →
    Extends (execOptional host n c σ) (execOptional host m c σ)
  | none, _ => .refl _
  | some c, σ => exec_extends hnm c σ

theorem execBranch_extends {n m : Nat} (hnm : n ≤ m) (i : Int32) :
    (branches : List (List Int32 × Stmt)) → (σ : Store) →
    (execBranch host n i branches σ = none ∧ execBranch host m i branches σ = none) ∨
      ∃ x y, execBranch host n i branches σ = some x ∧ execBranch host m i branches σ = some y ∧
        Extends x y
  | [], _ => .inl ⟨rfl, rfl⟩
  | (constants, c) :: rest, σ => by
    rw [execBranch, execBranch]
    rcases execBranch_extends hnm i rest σ with ⟨h, h'⟩ | ⟨x, y, h, h', hxy⟩ <;> rw [h, h']
    · split_ifs
      · exact .inr ⟨_, _, rfl, rfl, exec_extends hnm c σ⟩
      · exact .inl ⟨rfl, rfl⟩
    · exact .inr ⟨x, y, rfl, rfl, hxy⟩

end

/-- The result of a statement does not depend on how many rounds are given, if they are enough. -/
theorem exec_eq_of_ne_timeout {n m : Nat} {c : Stmt} {σ : Store}
    (hn : exec host n c σ ≠ .error .timeout) (hm : exec host m c σ ≠ .error .timeout) :
    exec host n c σ = exec host m c σ := by
  rcases le_total n m with h | h
  · exact (exec_extends h c σ).resolve_left hn
  · exact ((exec_extends h c σ).resolve_left hm).symm

end

end Run
end PascalJvm
