import Mathlib.Tactic
import PascalJvm.Compile
import PascalJvm.Proofs.NestedCalls
import PascalJvm.Real.Shortest

/-!
# Comparing reals

Two reals are less, equal, greater, or unordered if one of them is no number. One instruction
compares them for all six relations. It gives -1, 0 or 1, and has no answer of its own for an
unordered pair: that counts as greater. So the code of a comparison leaves the truth of the
relation for every ordered pair, and an unordered pair passes for different, greater, and greater
or equal (`related_number_iff`).
-/
namespace PascalJvm

open Jvm Typed

namespace Single

/-- The value of a real. An infinity counts as the power of two after the largest finite real. -/
def value (x : Single) : Rat := if x.isNegative then -x.basin.value else x.basin.value

/-- The outcome of comparing two reals. -/
inductive Comparison
  | less
  | equal
  | greater
  | unordered
deriving DecidableEq, Repr

def order (x y : Single) : Comparison :=
  if x.isNaN || y.isNaN then .unordered
  else if x.value < y.value then .less
  else if x.value = y.value then .equal
  else .greater

namespace Comparison

/-- The number that stands for an outcome. -/
def number : Comparison → Int32
  | less => -1
  | equal => 0
  | greater | unordered => 1

/-- Whether a pair with this outcome is in the relation. An unordered pair is different, and in no
other relation. -/
def satisfies (c : Comparison) : BinOp → Bool
  | .eq => c = equal
  | .ne => c ≠ equal
  | .lt => c = less
  | .le => c = less ∨ c = equal
  | .gt => c = greater
  | .ge => c = greater ∨ c = equal
  | _ => false

end Comparison

end Single

open Single (Comparison)

namespace Typed

mutual

/-- The expressions in an expression, with itself. -/
def Expr.subexprs : Expr → List Expr
  | .read t place placeTy => .read t place placeTy :: place.subexprs
  | .call t callee args => .call t callee args :: argSubexprs args
  | .unary t op x => .unary t op x :: x.subexprs
  | .binary t op a b => .binary t op a b :: (a.subexprs ++ b.subexprs)
  | .int t i => [.int t i]
  | .real t x => [.real t x]
  | .text t s => [.text t s]

def Place.subexprs : Place → List Expr
  | .root _ => []
  | .field base _ _ _ => base.subexprs
  | .element base index _ _ => base.subexprs ++ index.subexprs

def argSubexprs : List Arg → List Expr
  | [] => []
  | .value e :: args => e.subexprs ++ argSubexprs args
  | .ref place _ :: args => place.subexprs ++ argSubexprs args

end

/-- The expressions in a statement, besides those of the statements in it. -/
def Stmt.subexprs : Stmt → List Expr
  | .assign target value => target.place.subexprs ++ value.subexprs
  | .ifThen cond _ _ | .repeatUntil _ cond | .whileDo cond _ => cond.subexprs
  | .caseOf selector _ _ => selector.subexprs
  | .forDo counter first last _ _ =>
      counter.place.subexprs ++ (first.subexprs ++ last.subexprs)
  | .procedureCall _ args | .functionCall _ args => argSubexprs args
  | .write _ args => args.flatMap fun a => a.expr?.toList.flatMap Expr.subexprs
  | .read _ targets => targets.flatMap fun d => d.place.subexprs
  | .empty | .compound _ => []

section

variable {Γ : Variables} {x : Expr}

mutual

theorem Expr.WellTyped.subexpr : {e : Expr} → (h : e.WellTyped Γ) → (hx : x ∈ e.subexprs) →
    x.WellTyped Γ
  | .int .., h, hx | .real .., h, hx | .text .., h, hx => by
    rw [List.mem_singleton.mp hx]
    exact h
  | .read .., h, hx => by
    rcases List.mem_cons.mp hx with rfl | hx
    · exact h
    · exact Place.WellTyped.subexpr h.1 hx
  | .call .., h, hx => by
    rcases List.mem_cons.mp hx with rfl | hx
    · exact h
    · exact ArgsWellTyped.subexpr h.2 hx
  | .unary _ .neg _, h, hx => by
    rcases List.mem_cons.mp hx with rfl | hx
    · exact h
    · exact Expr.WellTyped.subexpr h.1 hx
  | .unary _ .not _, h, hx => by
    rcases List.mem_cons.mp hx with rfl | hx
    · exact h
    · exact Expr.WellTyped.subexpr h.1 hx
  | .binary .., h, hx => by
    rcases List.mem_cons.mp hx with rfl | hx
    · exact h
    · exact (List.mem_append.mp hx).elim (Expr.WellTyped.subexpr h.1)
        (Expr.WellTyped.subexpr h.2.1)

theorem Place.WellTyped.subexpr : {p : Place} → (h : p.WellTyped Γ) → (hx : x ∈ p.subexprs) →
    x.WellTyped Γ
  | .field .., h, hx => Place.WellTyped.subexpr h.1 hx
  | .element .., h, hx =>
    (List.mem_append.mp hx).elim (Place.WellTyped.subexpr h.1) (Expr.WellTyped.subexpr h.2.1)

theorem ArgsWellTyped.subexpr : {params : List Passing} → {args : List Arg} →
    (h : ArgsWellTyped Γ params args) → (hx : x ∈ argSubexprs args) → x.WellTyped Γ
  | [], [], _, hx => by cases hx
  | _ :: _, .value _ :: _, h, hx =>
    (List.mem_append.mp hx).elim (Expr.WellTyped.subexpr h.2.1) (ArgsWellTyped.subexpr h.2.2.2)
  | _ :: _, .ref _ _ :: _, h, hx =>
    (List.mem_append.mp hx).elim (Place.WellTyped.subexpr h.2.1)
      (ArgsWellTyped.subexpr h.2.2.2.2)

end

lemma Stmt.WellTyped.subexpr {c : Stmt} (h : c.WellTyped Γ) (hx : x ∈ c.subexprs) :
    x.WellTyped Γ := by
  cases c with
  | empty | compound body => cases hx
  | assign target value =>
    exact (List.mem_append.mp hx).elim h.1.place.subexpr h.2.1.subexpr
  | ifThen cond yes no => exact h.1.wellTyped.subexpr hx
  | caseOf selector branches otherwise => exact h.1.subexpr hx
  | repeatUntil body cond => exact h.2.wellTyped.subexpr hx
  | whileDo cond body => exact h.1.wellTyped.subexpr hx
  | forDo counter first last down body =>
    rcases List.mem_append.mp hx with hx | hx
    · exact h.1.place.subexpr hx
    · exact (List.mem_append.mp hx).elim h.2.2.1.subexpr h.2.2.2.2.1.subexpr
  | procedureCall callee args | functionCall callee args => exact h.2.subexpr hx
  | write line written =>
    obtain ⟨a, ha, hx⟩ := List.mem_flatMap.mp hx
    cases a with
    | literal text => cases hx
    | value e width =>
      have he : x ∈ e.subexprs := by simpa [WriteArg.expr?] using hx
      exact (h _ ha).1.subexpr he
  | read line targets =>
    obtain ⟨d, hd, hx⟩ := List.mem_flatMap.mp hx
    exact (h d hd).1.place.subexpr hx

end

end Typed

namespace Run

/-- The instruction that compares reals gives the number of the outcome. -/
def Host.OrdersReals (host : Host) : Prop :=
  ∀ x y : Single, host.compareReals x y = (x.order y).number

/-- The values of both operands, and the store after them. -/
def World.operands (w : World) (a b : Expr) (σ : Store) : Eval ((Value × Value) × Store) := do
  let (u, σ) ← w.value a σ
  let (v, σ) ← w.value b σ
  return ((u, v), σ)

/-- Of the six relations, an unordered pair passes for different, greater, and greater or equal. -/
lemma related_number_iff {op : BinOp} {related : Int32 → Int32 → Bool}
    (hop : orders op = some related) (c : Comparison) :
    related c.number 0 = true ↔
      c.satisfies op = true ∨ c = .unordered ∧ (op = .gt ∨ op = .ge) := by
  cases op <;> cases hop <;> cases c <;> decide

lemma relation_of_isRelational {op : BinOp} (h : op.isRelational = true) :
    ∃ rel, Emit.relation? op = some rel := by
  cases op <;> first | exact ⟨_, rfl⟩ | cases h

/-- A real is compared with numbers only. -/
lemma numeric_of_comparable {a b : Ty} (h : Check.comparable a b = true)
    (hreal : a = .real ∨ b = .real) : a.isNumeric = true ∧ b.isNumeric = true := by
  rcases Emit.compare_cases h with ⟨-, ha, hb, -⟩ | ⟨-, ha, hb, -⟩ | ⟨-, ha, hb, -⟩
  · exact ⟨ha, hb⟩
  · rcases hreal with hreal | hreal
    · cases ha.symm.trans hreal
    · cases hb.symm.trans hreal
  · rcases hreal with rfl | rfl
    · cases ha
    · cases hb

section

variable {w : World} {Γ : Variables} {σ : Store}

lemma expr_ok {e : Expr} (he : e.WellTyped Γ) (s : Emit.Supply) :
    ∃ block t, Emit.expr e s = .ok (block, t) := by
  have hfails : Emit.FailsOnly (fun _ => False) (Emit.expr e) := Emit.expr_failsOnly he
  cases hgen : Emit.expr e s with
  | error err => exact (hfails s err hgen).elim
  | ok r => exact ⟨r.1, r.2, rfl⟩

/-- A result that is known from the first computation alone. -/
lemma World.Follows.of_bind {α β : Type} {code : List Instr} {kept : Set Nat} {c : Config}
    {x : Eval α} {f : α → Eval β} {out : β → Config → Prop} {out' : α → Config → Prop}
    (h : w.Follows code kept c (x >>= f) out)
    (hf : ∀ a, x = .ok a → ∃ b, f a = .ok b ∧ ∀ d, out b d → out' a d) :
    w.Follows code kept c x out' := by
  constructor
  · intro a hx
    obtain ⟨b, hb, hout⟩ := hf a hx
    obtain ⟨d, hd, hbd⟩ := h.reaches (a := b) (by rw [hx]; exact hb)
    exact ⟨d, hd, hout d hbd⟩
  · intro t hx
    exact h.traps (by rw [hx]; rfl)

lemma value_binary (ty : Ty) (op : BinOp) (a b : Expr) :
    w.value (.binary ty op a b) σ = w.operands a b σ >>= fun r => do
      return (← binary w.toHost op r.1.1 r.1.2, r.2) := by
  simp only [World.value, World.operands, bind_assoc, pure_bind]

lemma operands_safe (hw : w.Sound Γ.statics) {a b : Expr} (ha : a.WellTyped Γ)
    (hb : b.WellTyped Γ) (hσ : σ.Sound Γ.statics Γ.slots ∅) :
    Safe (fun r => HasTy r.2.heap a.ty r.1.1 ∧ HasTy r.2.heap b.ty r.1.2) (w.operands a b σ) := by
  refine (value_safe hw a ha hσ).bind fun (u, τ) ⟨hτ, hu, _⟩ => ?_
  refine (value_safe hw b hb hτ.sound).bind fun (v, υ) ⟨hυ, hv, _⟩ => ?_
  exact ⟨hυ.hasTy hu, hv⟩

/-- With a real operand, a comparison is decided by the order of the reals. -/
lemma binary_eq_ok {heap : Heap} (hhost : w.toHost.OrdersReals) {op : BinOp}
    (hop : op.isRelational = true) {a b : Ty} (h : Check.comparable a b = true)
    (hreal : a = .real ∨ b = .real) {u v : Value} (hu : HasTy heap a u) (hv : HasTy heap b v) :
    ∃ x y i, asReal w.toHost u = .ok x ∧ asReal w.toHost v = .ok y ∧
      binary w.toHost op u v = .ok (.int i) ∧ (i = 0 ∨ i = 1) ∧
      (i = 1 ↔ (x.order y).satisfies op = true ∨
        x.order y = .unordered ∧ (op = .gt ∨ op = .ge)) := by
  obtain ⟨ha, hb⟩ := numeric_of_comparable h hreal
  obtain ⟨x, hx, -⟩ := promote_float w.toHost hu ha
  obtain ⟨y, hy, -⟩ := promote_float w.toHost hv hb
  obtain ⟨rel, hrel⟩ := relation_of_isRelational hop
  have horders := orders_of_relation hrel
  refine ⟨x, y, ofBool (rel.holds (x.order y).number 0), hx, hy, ?_, ?_, ?_⟩
  · rw [binary, horders, ← hhost x y]
    simp only [compare_of_real _ hu hv hreal, hx, hy]
    rfl
  · unfold ofBool
    split_ifs
    · exact .inr rfl
    · exact .inl rfl
  · rw [← related_number_iff horders, ofBool]
    split_ifs with htrue <;> simp [htrue]

/-- The code of a comparison, after its operands. -/
lemma comparison_follows (hw : w.Sound Γ.statics) (hhost : w.toHost.OrdersReals) {ty : Ty}
    {op : BinOp} {a b : Expr} (he : (Expr.binary ty op a b).WellTyped Γ)
    (hop : op.isRelational = true) (hreal : a.ty = .real ∨ b.ty = .real) {s t : Emit.Supply}
    {block code : List Instr} {pc : Nat}
    (hgen : Emit.expr (.binary ty op a b) s = .ok (block, t)) (hs : Γ.slots.length ≤ s.slot)
    (hσ : σ.Sound Γ.statics Γ.slots ∅) (hn : (boundLabels code).Nodup)
    (hat : CodeAt code pc block) (st : List Value) :
    w.Follows code (spared s.slot (a.lent ++ b.lent)) ⟨pc, st, σ⟩ (w.operands a b σ) fun r d =>
      d.pc = pc + block.length ∧ Agree Γ.slots.length r.2 d.state.store ∧
      ∃ x y i, asReal w.toHost r.1.1 = .ok x ∧ asReal w.toHost r.1.2 = .ok y ∧
        d.state.stack = .int i :: st ∧ (i = 0 ∨ i = 1) ∧
        (i = 1 ↔ (x.order y).satisfies op = true ∨
          x.order y = .unordered ∧ (op = .gt ∨ op = .ge)) := by
  have hruns := World.expr_computes hw _ he hgen hs hσ (.refl _ σ) st hn hat
  rw [value_binary] at hruns
  obtain ⟨ha, hb, r, hr, -⟩ := he
  obtain ⟨rel, hrel⟩ := relation_of_isRelational hop
  obtain ⟨hcomp, -⟩ := (Check.operands_of_binaryTy hr).of_relation hrel
  refine hruns.of_bind fun ((u, v), τ) hoperands => ?_
  obtain ⟨hu, hv⟩ := (operands_safe hw ha hb hσ).of_ok hoperands
  obtain ⟨x, y, i, hx, hy, hbinary, hi, hiff⟩ := binary_eq_ok hhost hop hcomp hreal hu hv
  refine ⟨(.int i, τ), ?_, fun d ⟨hpc, hstack, hagree⟩ => ?_⟩
  · simp only [hbinary]
    rfl
  · exact ⟨hpc, hagree, x, y, i, hx, hy, hstack, hi, hiff⟩

end

end Run

open Run

/-- Take any comparison with a real operand in a checked program, at any depth in its expressions.
Its code leaves 1 or 0 on the stack, above what was there, and after the effects of the operands.
It leaves 1 exactly if the operands, widened to reals, are in the relation, or they are unordered
and the relation is greater, or greater or equal. -/
theorem real_comparison_leaves_order {source : List Char} {p : Source.Program} {env : Environment}
    {q : Program} (hparse : Source.Program.parse source = .ok p)
    (henv : Environment.ofProgram p = .ok env) (hcheck : (Check.program env p).outcome = .ok q)
    {body : Stmt} {slots : List ParamDesc} (hbody : (body, slots) ∈ q.bodies) {c : Stmt}
    (hc : c.Within body) {ty : Ty} {op : BinOp} {a b : Expr}
    (he : Expr.binary ty op a b ∈ c.subexprs) (hop : op.isRelational = true)
    (hreal : a.ty = .real ∨ b.ty = .real) {s : Emit.Supply} (hs : slots.length ≤ s.slot) :
    ∃ block t, Emit.expr (.binary ty op a b) s = .ok (block, t) ∧
      ∀ w : World, w.Sound q.globals → w.toHost.OrdersReals → ∀ code pc,
        (boundLabels code).Nodup → CodeAt code pc block →
        ∀ σ : Store, σ.Sound q.globals slots ∅ → ∀ st,
        w.operands a b σ ≠ .error .stuck ∧
        w.Follows code (spared s.slot (a.lent ++ b.lent)) ⟨pc, st, σ⟩ (w.operands a b σ) fun r d =>
          d.pc = pc + block.length ∧ Agree slots.length r.2 d.state.store ∧
          ∃ x y i, asReal w.toHost r.1.1 = .ok x ∧ asReal w.toHost r.1.2 = .ok y ∧
            d.state.stack = .int i :: st ∧ (i = 0 ∨ i = 1) ∧
            (i = 1 ↔ (x.order y).satisfies op = true ∨
              x.order y = .unordered ∧ (op = .gt ∨ op = .ge)) := by
  obtain ⟨Γ, hstatics, rfl, hwt⟩ := (wellTyped_of_checked hparse henv hcheck).statement hbody hc
  have hwt := hwt.subexpr he
  obtain ⟨block, t, hgen⟩ := expr_ok hwt s
  refine ⟨block, t, hgen, fun w hw hhost code pc hn hat σ hσ st => ?_⟩
  rw [← hstatics] at hw hσ
  exact ⟨(operands_safe hw hwt.1 hwt.2.1 hσ).ne_stuck,
    comparison_follows hw hhost hwt hop hreal hgen hs hσ hn hat st⟩

section

/-- A comparison of a real with an integer, inside another expression. -/
def exceedsSource : List Char :=
  "program p; var x: real; b: boolean; begin b := not (x > 1) end.".toList

/-- A world that knows how reals are compared, and how 1 is widened. -/
def orderWorld : World :=
  { bumpWorld with
    ofInt := fun i => if i = 1 then .one else .zero
    compareReals := fun x y => (x.order y).number }

lemma orderWorld_sound (statics : List (String × Ty)) : orderWorld.Sound statics :=
  ⟨(bumpWorld_sound statics).room, (bumpWorld_sound statics).call⟩

/-- A store with a real variable `x`. All others are zero. -/
def realStore (x : Single) : Store :=
  ⟨fun name => some (if name = "x" then .real x else .int 0), fun _ => none, fun _ => none⟩

/-- What has to be known of a variable for such a store to fit it. -/
def fitsReal (g : String × Ty) : Bool := if g.1 = "x" then g.2.is .real else g.2.isOrdinal

lemma realStore_sound (x : Single) {globals : List (String × Ty)}
    (h : globals.all fitsReal = true) : (realStore x).Sound globals [] ∅ where
  wellTyped :=
    { statics := fun {name t} ht => by
        obtain ⟨before, after, rfl, -⟩ := List.lookup_eq_some_iff.mp ht
        have hfits : fitsReal (name, t) = true := List.all_eq_true.mp h (name, t) (by simp)
        refine ⟨_, rfl, ?_⟩
        unfold fitsReal at hfits
        split_ifs at hfits ⊢
        · obtain rfl := Ty.eq_basic_of_is hfits
          simp [HasTy]
        · exact hasTy_int hfits 0
      slots := fun h => (nomatch h) }
  shared :=
    { present := fun h => h.elim
      statics := fun {name v} hv => by
        cases hv
        split_ifs <;> trivial
      objects := fun _ h => (nomatch h) }
  slots h := nomatch h

/-- A comparison of the variable `x` with 1. -/
def comparesToOne? : Expr → Option BinOp
  | .binary _ op (.read (.basic .real) (.root ⟨_, .static "x", _⟩) _) (.int _ 1) => some op
  | _ => none

/-- What is known of a comparison of `x` with 1 in a program. -/
structure ComparesToOne (source : List Char) (q : Program) (body c : Stmt) (ty : Ty) (op : BinOp)
    (a b : Expr) : Prop where
  checked : (Compile.checked source).outcome = .ok q
  body_mem : (body, []) ∈ q.bodies
  within : c.Within body
  mem : Expr.binary ty op a b ∈ c.subexprs
  real : a.ty = .real
  sound (x : Single) : (realStore x).Sound q.globals [] ∅
  operands (x : Single) : orderWorld.operands a b (realStore x) =
    .ok ((.real x, .int 1), realStore x)

lemma exceedsSource_compares :
    ∃ q body c ty a b, ComparesToOne exceedsSource q body c ty .gt a b := by
  have hresult : ((Compile.checked exceedsSource).outcome.toOption.bind fun q =>
      q.bodies.head?.bind fun body => body.1.parts.head?.bind fun c =>
        c.subexprs[1]?.bind fun e => (comparesToOne? e).bind fun op =>
          if q.globals.all fitsReal && body.2.isEmpty then some op else none) = some .gt := by
    decide +kernel
  obtain ⟨q, hq, hresult⟩ := Option.bind_eq_some_iff.mp hresult
  obtain ⟨⟨body, slots⟩, hbody, hresult⟩ := Option.bind_eq_some_iff.mp hresult
  obtain ⟨c, hc, hresult⟩ := Option.bind_eq_some_iff.mp hresult
  obtain ⟨e, he, hresult⟩ := Option.bind_eq_some_iff.mp hresult
  obtain ⟨op, hop, hresult⟩ := Option.bind_eq_some_iff.mp hresult
  rw [toOption_eq_some] at hq
  split_ifs at hresult with hfits
  cases hresult
  obtain ⟨hglobals, hslots⟩ := Bool.and_eq_true_iff.mp hfits
  obtain rfl : slots = [] := List.isEmpty_iff.mp hslots
  unfold comparesToOne? at hop
  split at hop
  next ty _ name ty' placeTy t =>
    cases hop
    exact ⟨q, body, c, ty, _, _, hq, List.mem_of_head? hbody, .single (List.mem_of_head? hc),
      List.mem_of_getElem? he, rfl, fun x => realStore_sound x hglobals, fun x => rfl⟩
  next => cases hop

theorem exceedsSource_leaves_order : ∃ q ty a b block t d,
    (Compile.checked exceedsSource).outcome = .ok q ∧
    Emit.expr (.binary ty .gt a b) (.startingAt 0) = .ok (block, t) ∧
    orderWorld.Leads block ∅ ⟨0, [], realStore .two⟩ d ∧ d.pc = block.length ∧
    Single.order .two .one = .greater ∧ d.state.stack = [.int 1] := by
  obtain ⟨q, body, c, ty, a, b, h⟩ := exceedsSource_compares
  obtain ⟨p, env, hparse, henv, hcheck⟩ := Compile.checked_ok.mp h.checked
  obtain ⟨block, t, hgen, hall⟩ := real_comparison_leaves_order hparse henv hcheck h.body_mem
    h.within h.mem rfl (.inl h.real) (s := .startingAt 0) le_rfl
  have hn := (Emit.expr_spans _ _ _ _ hgen).1.nodup
  obtain ⟨-, hfollows⟩ := hall orderWorld (orderWorld_sound _) (fun _ _ => rfl) block 0 hn
    codeAt_self _ (h.sound .two) []
  obtain ⟨d, hd, hpc, -, x, y, i, hx, hy, hstack, -, hiff⟩ := hfollows.reaches (h.operands .two)
  cases hx
  cases hy
  have horder : Single.order .two .one = .greater := by decide +kernel
  have hgreater : (Single.order .two (orderWorld.ofInt 1)).satisfies .gt = true := by decide +kernel
  obtain rfl : i = 1 := hiff.mpr (.inl hgreater)
  exact ⟨q, ty, a, b, block, t, d, h.checked, hgen, hd.mono (Set.empty_subset _),
    by simpa using hpc, horder, hstack⟩

/-- What is no number is not greater than 1, but the code finds it greater. -/
theorem exceedsSource_unordered_passes : ∃ q ty a b block t d,
    (Compile.checked exceedsSource).outcome = .ok q ∧
    Emit.expr (.binary ty .gt a b) (.startingAt 0) = .ok (block, t) ∧
    orderWorld.toHost.OrdersReals ∧
    orderWorld.operands a b (realStore .nan) = .ok ((.real .nan, .int 1), realStore .nan) ∧
    orderWorld.Leads block ∅ ⟨0, [], realStore .nan⟩ d ∧ d.pc = block.length ∧
    Single.order .nan .one = .unordered ∧ Comparison.satisfies .unordered .gt = false ∧
    d.state.stack = [.int 1] := by
  obtain ⟨q, body, c, ty, a, b, h⟩ := exceedsSource_compares
  obtain ⟨p, env, hparse, henv, hcheck⟩ := Compile.checked_ok.mp h.checked
  obtain ⟨Γ, hstatics, hslots, hwt⟩ :=
    (wellTyped_of_checked hparse henv hcheck).statement h.body_mem h.within
  have hwt := hwt.subexpr h.mem
  have hsound : (realStore .nan).Sound Γ.statics Γ.slots ∅ := by
    rw [hstatics, hslots]
    exact h.sound .nan
  obtain ⟨block, t, hgen⟩ := expr_ok hwt (.startingAt 0)
  have hn := (Emit.expr_spans _ _ _ _ hgen).1.nodup
  have hs : Γ.slots.length ≤ (Emit.Supply.startingAt 0).slot := by
    rw [hslots]
    exact le_rfl
  have hfollows := comparison_follows (orderWorld_sound _) (fun _ _ => rfl) hwt rfl
    (.inl h.real) hgen hs hsound hn codeAt_self []
  obtain ⟨d, hd, hpc, -, x, y, i, hx, hy, hstack, -, hiff⟩ := hfollows.reaches (h.operands .nan)
  cases hx
  cases hy
  have horder : Single.order .nan .one = .unordered := by decide +kernel
  obtain rfl : i = 1 := hiff.mpr (.inr ⟨horder, .inl rfl⟩)
  exact ⟨q, ty, a, b, block, t, d, h.checked, hgen, fun _ _ => rfl, h.operands .nan,
    hd.mono (Set.empty_subset _), by simpa using hpc, horder, rfl, hstack⟩

end

end PascalJvm
