import Mathlib.Tactic
import PascalJvm.Proofs.FreshLabels
import PascalJvm.Proofs.Machine

/-!
# Running the code of expressions

The code of an expression leaves its value on the stack, and the code of a place leaves what
stands for its location; where the meaning traps, so does the code. Locations have exact indices,
while the code subtracts the first index with 32 bits, which makes no difference for the arrays
that a program can declare.
-/
namespace PascalJvm.Run

open Jvm Typed

/-- What stands on the stack for a location. -/
def Location.operands : Location → List Value
  | .static _ | .slot _ => []
  | .field a _ => [.ref a]
  | .element a i => [.int (.ofInt i), .ref a]

section

variable {σ : Store} {t : Ty} {k : Kind} {v : Value} {a : Nat} {i : Int}

/-- An index that wraps around is out of bounds before and after. -/
lemma wrap_cases {es : List Value} (hlen : es.length < 2 ^ 31) (hlow : es.length - 2 ^ 32 ≤ i)
    (hhigh : i < 2 ^ 32) : (Int32.ofInt i).toInt = i ∨
      (¬ Store.inRange es i ∧ ¬ Store.inRange es (Int32.ofInt i).toInt) := by
  unfold Store.inRange
  rw [Int32.toInt_ofInt, Int.bmod_def, Int32.size]
  omega

lemma read_wrapped (h : (Location.element a i).Holds σ t) :
    σ.read (.element a (Int32.ofInt i).toInt) = σ.read (.element a i) := by
  obtain ⟨es, hes, -, hlen, hlow, hhigh⟩ := h
  rcases wrap_cases hlen hlow hhigh with h | ⟨h, h'⟩
  · rw [h]
  · simp only [Store.read, hes, if_neg h, if_neg h']

lemma write_wrapped (h : (Location.element a i).Holds σ t) :
    σ.write k v (.element a (Int32.ofInt i).toInt) = σ.write k v (.element a i) := by
  obtain ⟨es, hes, -, hlen, hlow, hhigh⟩ := h
  rcases wrap_cases hlen hlow hhigh with h | ⟨h, h'⟩
  · rw [h]
  · simp only [Store.write, hes, if_neg h, if_neg h']

end

/-- A value as an operand of arithmetic of a kind. -/
def promote (host : Host) : Kind → Value → Value
  | .float, .int i => .real (host.ofInt i)
  | _, v => v

@[simp] theorem promote_int (host : Host) (v : Value) : promote host .int v = v := rfl

section

variable {host : Host} {heap : Heap} {a b r t : Ty} {v w : Value} {op : BinOp} {kind : Kind}
  {st : List Value} {σ : Store}

lemma promote_float (host : Host) (hv : HasTy heap t v) (ht : t.isNumeric = true) :
    ∃ x, asReal host v = .ok x ∧ promote host .float v = .real x := by
  rcases hv.number ht with ⟨-, x, rfl⟩ | ⟨-, i, rfl⟩
  · exact ⟨x, rfl, rfl⟩
  · exact ⟨host.ofInt i, rfl, rfl⟩

/-- Operands of a kind: numbers for floats. -/
lemma work_widenTo (hv : HasTy heap t v) (hk : kind = .float ∧ t.isNumeric = true ∨ kind = .int) :
    workAll host (Emit.widenTo kind t) ⟨v :: st, σ⟩ = .ok ⟨promote host kind v :: st, σ⟩ := by
  rcases hk with ⟨rfl, ht⟩ | rfl
  · rcases hv.number ht with ⟨rfl, x, rfl⟩ | ⟨rfl, i, rfl⟩ <;> rfl
  · rfl

lemma work_arith (h : Check.Operands op a b r) (hop : Emit.relation? op = none)
    (ht : r.Retypes t) (hv : HasTy heap a v) (hw : HasTy heap b w) :
    work host (.arith (Emit.arithOp op) (Emit.operatorKind t op))
      ⟨promote host (Emit.operatorKind t op) w :: promote host (Emit.operatorKind t op) v :: st, σ⟩ =
      (do return ⟨(← arithmetic host op v w) :: st, σ⟩) := by
  rcases Emit.operatorKind_cases h hop ht with ⟨hk, ha, hb, rfl, hops, hreal⟩ |
    ⟨hk, rfl, rfl, -, hops⟩ | ⟨hk, rfl, rfl, -, hops⟩ <;> rw [hk]
  · rw [arithmetic_of_real hv hw hreal]
    obtain ⟨x, hx, hpx⟩ := promote_float host hv ha
    obtain ⟨y, hy, hpy⟩ := promote_float host hw hb
    rw [hpx, hpy, onNumbers, hx, hy]
    rcases hops with rfl | rfl | rfl | rfl <;> rfl
  all_goals
    obtain ⟨i, rfl⟩ := hv.eq_int rfl
    obtain ⟨j, rfl⟩ := hw.eq_int rfl
    rw [arithmetic_of_int i j (by rintro rfl; simp at hops)]
  · rcases hops with rfl | rfl | rfl | rfl | rfl <;> by_cases hj : j = 0 <;>
      simp [Emit.arithOp, promote, work, intArith, onInts, hj]
  · rcases hops with rfl | rfl <;> rfl

lemma work_neg (hv : HasTy heap t v) (ht : t.isNumeric = true) :
    workAll host [.arith .neg (Emit.arithKind t)] ⟨v :: st, σ⟩ =
      (do return ⟨(← unary host .neg v) :: st, σ⟩) := by
  rcases hv.number ht with ⟨rfl, x, rfl⟩ | ⟨rfl, i, rfl⟩ <;> rfl

lemma work_not (hv : HasTy heap .boolean v) :
    workAll host [.pushInt 1, .arith .xor .int] ⟨v :: st, σ⟩ =
      (do return ⟨(← unary host .not v) :: st, σ⟩) := by
  obtain ⟨i, rfl⟩ := hv.eq_int rfl
  rfl

lemma orders_of_relation {rel : Relation} (h : Emit.relation? op = some rel) :
    orders op = some rel.holds := by
  cases op <;> cases h <;> rfl

/-- The jump of a comparison is taken if the operands are related. -/
lemma follows_compare {code : List Instr} {p q : Nat} {rel : Relation} {yes : Label}
    (hn : (boundLabels code).Nodup) (hcode : CodeAt code p (Emit.compare rel a b yes))
    (hyes : code[q]? = some (.label yes)) (h : Check.comparable a b = true) (hv : HasTy heap a v)
    (hw : HasTy heap b w) :
    Follows host code
      ⟨p, promote host (Emit.compareKind a b) w :: promote host (Emit.compareKind a b) v :: st, σ⟩
      (compare host rel.holds v w)
      fun related => ⟨if related then q else p + (Emit.compare rel a b yes).length, st, σ⟩ := by
  rcases Emit.compare_cases h with ⟨hk, ha, hb, hreal, hblock⟩ | ⟨hk, rfl, rfl, hblock⟩ |
    ⟨hk, ha, hb, hblock⟩ <;> rw [hk] <;> rw [hblock] at hcode ⊢
  · rw [codeAt_cons, codeAt_singleton] at hcode
    obtain ⟨x, hx, hpx⟩ := promote_float host hv ha
    obtain ⟨y, hy, hpy⟩ := promote_float host hw hb
    rw [compare_of_real _ hv hw hreal, hx, hy, hpx, hpy]
    exact .step (step_of_act hcode.1 rfl rfl) (.step (step_ifZero hn hcode.2 hyes) (.ok rfl))
  · rw [codeAt_cons, codeAt_singleton] at hcode
    obtain ⟨x, rfl⟩ := hv.eq_text
    obtain ⟨y, rfl⟩ := hw.eq_text
    exact .step (step_of_act hcode.1 rfl rfl) (.step (step_ifZero hn hcode.2 hyes) (.ok rfl))
  · rw [codeAt_singleton] at hcode
    obtain ⟨i, rfl⟩ := hv.eq_int ha
    obtain ⟨j, rfl⟩ := hw.eq_int hb
    exact .step (step_ifCompare hn hcode hyes) (.ok rfl)

/-- A comparison leaves 1 or 0. -/
lemma runs_relation {rel : Relation} {yes done : Label} (h : Check.comparable a b = true)
    (hv : HasTy heap a v) (hw : HasTy heap b w) :
    Runs host (Emit.compare rel a b yes ++
        [.pushInt 0, .goto done, .label yes, .pushInt 1, .label done])
      ⟨promote host (Emit.compareKind a b) w :: promote host (Emit.compareKind a b) v :: st, σ⟩
      (do return .int (ofBool (← compare host rel.holds v w))) fun r => ⟨r :: st, σ⟩ := by
  intro code p hn hcode
  simp only [codeAt_append, codeAt_cons, codeAt_nil, and_true] at hcode
  obtain ⟨hcompare, hzero, hgoto, hyes, hone, hdone⟩ := hcode
  refine (follows_compare hn hcompare hyes h hv hw).bind fun related _ => ?_
  cases related with
  | true =>
    exact .step (step_label hyes) (.step (step_of_act hone rfl rfl) (.step (step_label hdone)
      (.ok (by simp [Nat.add_assoc, ofBool]))))
  | false =>
    exact .step (step_of_act hzero rfl rfl) (.step (step_goto hn hgoto hdone)
      (.step (step_label hdone) (.ok (by simp [Nat.add_assoc, ofBool]))))

end

/-- Generated code leaves on any stack what stands for the result, and the store as it is. -/
def Computes (host : Host) (σ : Store) {α : Type} (gen : Emit.Gen (List Instr)) (x : Eval α)
    (words : α → List Value) : Prop :=
  ∀ ⦃s code t⦄, gen s = .ok (code, t) → ∀ st, Runs host code ⟨st, σ⟩ x fun a => ⟨words a ++ st, σ⟩

/-- The value at a place. -/
def fetch (host : Host) (σ : Store) (p : Place) : Eval Value := do σ.read (← locate host σ p)

section

variable {host : Host} {σ : Store} {Γ : Variables}

lemma eval_read (t : Ty) (p : Place) (u : Ty) : eval host σ (.read t p u) = fetch host σ p := by
  rw [eval]
  rfl

lemma fetch_safe (hσ : σ.WellTyped Γ.statics Γ.slots) {p : Place} (h : p.WellTyped Γ)
    (hfree : p.callFree = true) : Safe (HasTy σ.heap p.ty) (fetch host σ p) :=
  (locate_safe hσ p h hfree).bind fun _ => read_safe

lemma locate_field {base : Place} {record name : String} {t : Ty} {loc : Location}
    (h : locate host σ (.field base record name t) = .ok loc) : ∃ a, loc = .field a name := by
  simp only [locate, bind_eq_ok, pure_eq_ok] at h
  obtain ⟨-, -, -, -, a, -, rfl⟩ := h
  exact ⟨a, rfl⟩

lemma locate_element {base : Place} {index : Expr} {low : Int32} {elem : Ty} {loc : Location}
    (h : locate host σ (.element base index low elem) = .ok loc) : ∃ a i, loc = .element a i := by
  simp only [locate, bind_eq_ok, pure_eq_ok] at h
  obtain ⟨-, -, -, -, a, -, -, -, i, -, rfl⟩ := h
  exact ⟨a, _, rfl⟩

/-- The cell of a variable, as it stands in its slot. -/
lemma locate_cell (hσ : σ.WellTyped Γ.statics Γ.slots) {name : String} {n : Nat} {ty : Ty}
    (h : Symbol.Declared Γ ⟨name, .cell n, ty⟩) : ∃ a, σ.read (.slot n) = .ok (.ref a) ∧
      locate host σ (.root ⟨name, .cell n, ty⟩) = .ok (.element a 0) := by
  obtain ⟨v, hv, hty⟩ := hσ.slots h
  obtain ⟨a, rfl⟩ := HasTy.eq_ref hty rfl
  have hread : σ.read (.slot n) = .ok (.ref a) := by simp only [Store.read, hv, Store.orStuck]
  refine ⟨a, hread, ?_⟩
  rw [locate, hread]
  rfl

lemma work_loadSymbol (hσ : σ.WellTyped Γ.statics Γ.slots) (s : Symbol) (h : s.Declared Γ)
    (st : List Value) : workAll host (Emit.loadSymbol s s.ty) ⟨st, σ⟩ =
      (do return ⟨(← fetch host σ (.root s)) :: st, σ⟩) := by
  obtain ⟨name, storage, ty⟩ := s
  cases storage with
  | static name => exact workAll_singleton _ _
  | slot n => exact workAll_singleton _ _
  | cell n =>
    obtain ⟨a, hread, hloc⟩ := locate_cell hσ h
    have hload : work host (.load .ref n) ⟨st, σ⟩ = .ok ⟨.ref a :: st, σ⟩ := by
      rw [work, hread]
      rfl
    rw [fetch, hloc, Emit.loadSymbol, workAll_cons_ok hload]
    exact workAll_singleton (.arrayLoad (.ofTy ty)) ⟨.int 0 :: .ref a :: st, σ⟩

/-- The object that a variable refers to. -/
lemma work_loadObject {s : Symbol} {s₀ t : Emit.Supply} {code : List Instr}
    (h : Emit.loadObject s s₀ = .ok (code, t)) (st : List Value) : Straight code ∧
      workAll host code ⟨st, σ⟩ = (do return ⟨(← fetch host σ (.root s)) :: st, σ⟩) := by
  obtain ⟨name, storage, ty⟩ := s
  cases storage with
  | static name =>
    obtain ⟨rfl, rfl⟩ := Emit.Gen.pure_ok.mp h
    exact ⟨by simp [Straight, Instr.straight], workAll_singleton _ _⟩
  | slot n =>
    obtain ⟨rfl, rfl⟩ := Emit.Gen.pure_ok.mp h
    exact ⟨by simp [Straight, Instr.straight], workAll_singleton _ _⟩
  | cell n => exact (Emit.Gen.throw_ok.mp h).elim

lemma loadObject_computes (s : Symbol) :
    Computes host σ (Emit.loadObject s) (fetch host σ (.root s)) ([·]) := by
  intro s₀ code t h st
  obtain ⟨hstraight, hwork⟩ : Straight code ∧ workAll host code ⟨st, σ⟩ = _ :=
    work_loadObject h st
  exact .straight hstraight hwork

lemma loadVia_computes (hσ : σ.WellTyped Γ.statics Γ.slots) {p : Place} (h : p.WellTyped Γ)
    {walk : Emit.Gen (List Instr)} (hwalk : Computes host σ walk (fetch host σ p) ([·])) :
    Computes host σ (Emit.loadVia walk p.ty p) (fetch host σ p) ([·]) := by
  cases p with
  | root s =>
    intro s₀ code t hcode st
    obtain ⟨rfl, rfl⟩ := Emit.Gen.pure_ok.mp hcode
    exact .straight (Emit.straight_loadSymbol _ _) (work_loadSymbol hσ s h st)
  | field => exact hwalk
  | element => exact hwalk

lemma work_symbolAddress (hσ : σ.WellTyped Γ.statics Γ.slots) (s : Symbol) (h : s.Declared Γ)
    (st : List Value) : workAll host (Emit.symbolAddress s) ⟨st, σ⟩ =
      (do return ⟨(← locate host σ (.root s)).operands ++ st, σ⟩) := by
  obtain ⟨name, storage, ty⟩ := s
  cases storage with
  | static name => rfl
  | slot n => rfl
  | cell n =>
    obtain ⟨a, hread, hloc⟩ := locate_cell hσ h
    rw [hloc]
    simp only [Emit.symbolAddress, workAll, work, hread]
    rfl

/-- The record of a field stands for the field. -/
lemma runs_field (hσ : σ.WellTyped Γ.statics Γ.slots) {base : Place} {record name : String} {t : Ty}
    (h : (Place.field base record name t).WellTyped Γ) (hfree : base.callFree = true)
    {code : List Instr} {st : List Value}
    (hbase : Runs host code ⟨st, σ⟩ (fetch host σ base) fun v => ⟨v :: st, σ⟩) :
    Runs host code ⟨st, σ⟩ (locate host σ (.field base record name t))
      fun loc => ⟨loc.operands ++ st, σ⟩ := by
  obtain ⟨hwt, fields, hty, -⟩ := h
  have hlocate : locate host σ (.field base record name t) =
      fetch host σ base >>= fun v => do return .field (← asRef v) name := by
    simp only [locate, fetch, bind_assoc]
  rw [hlocate]
  refine hbase.recast fun v hv => ?_
  obtain ⟨a, rfl⟩ := ((fetch_safe hσ hwt hfree).of_ok hv).eq_ref (by rw [hty]; rfl)
  exact ⟨.field a name, rfl, rfl⟩

lemma work_rebase (low i : Int32) (st : List Value) :
    workAll host (Emit.rebase low) ⟨.int i :: st, σ⟩ =
      .ok ⟨.int (.ofInt (i.toInt - low.toInt)) :: st, σ⟩ := by
  rw [Int32.ofInt_sub, Int32.ofInt_toInt, Int32.ofInt_toInt, Emit.rebase]
  split_ifs with hlow
  · rw [hlow, Int32.sub_zero]
    rfl
  · rfl

/-- The array and the index from zero stand for an element. -/
lemma runs_element (hσ : σ.WellTyped Γ.statics Γ.slots) {base : Place} {index : Expr} {low : Int32}
    {elem : Ty} (h : (Place.element base index low elem).WellTyped Γ)
    (hfree : (Place.element base index low elem).callFree = true) {codeBase codeIndex : List Instr}
    {st : List Value}
    (hbase : Runs host codeBase ⟨st, σ⟩ (fetch host σ base) fun v => ⟨v :: st, σ⟩)
    (hindex : ∀ st, Runs host codeIndex ⟨st, σ⟩ (eval host σ index) fun v => ⟨v :: st, σ⟩) :
    Runs host (codeBase ++ codeIndex ++ Emit.rebase low) ⟨st, σ⟩
      (locate host σ (.element base index low elem)) fun loc => ⟨loc.operands ++ st, σ⟩ := by
  obtain ⟨hwt, hindexTy, hord, len, hty⟩ := h
  rw [Place.callFree, Bool.and_eq_true_iff] at hfree
  have hlocate : locate host σ (.element base index low elem) =
      fetch host σ base >>= fun v => asRef v >>= fun a => eval host σ index >>= fun w => do
        return .element a ((← asInt w).toInt - low.toInt) := by
    simp only [locate, fetch, bind_assoc]
  rw [hlocate, List.append_assoc]
  refine hbase.append fun v hv => ?_
  obtain ⟨a, rfl⟩ := ((fetch_safe hσ hwt hfree.1).of_ok hv).eq_ref (by rw [hty]; rfl)
  change Runs host _ _ (eval host σ index >>= _) _
  refine (hindex _).append fun w hw => ?_
  obtain ⟨i, rfl⟩ := ((eval_safe hσ index hindexTy hfree.2).of_ok hw).eq_int hord
  exact .straight (Emit.straight_rebase low) (work_rebase low i _)

/-- The last instruction of a path reads from the location. -/
lemma work_getField {record name : String} {t : Ty} {a : Nat} {st : List Value} :
    workAll host [.getField (.member record name t)] ⟨.ref a :: st, σ⟩ =
      (do return ⟨(← σ.read (.field a name)) :: st, σ⟩) :=
  workAll_singleton _ _

lemma work_arrayLoad {t : Ty} {k : Kind} {a : Nat} {i : Int} {st : List Value}
    (h : (Location.element a i).Holds σ t) :
    workAll host [.arrayLoad k] ⟨.int (.ofInt i) :: .ref a :: st, σ⟩ =
      (do return ⟨(← σ.read (.element a i)) :: st, σ⟩) := by
  rw [workAll_singleton, work, read_wrapped h]

/-- Both operands, each widened for the operator. -/
lemma runs_operands {a b : Expr} {k : Kind} {codeA codeB rest : List Instr} {st : List Value}
    {α : Type} {f : Value → Value → Eval α} {out : α → State}
    (hσ : σ.WellTyped Γ.statics Γ.slots) (ha : a.WellTyped Γ) (hb : b.WellTyped Γ)
    (hfa : a.callFree = true) (hfb : b.callFree = true)
    (hk : (k = .float ∧ a.ty.isNumeric = true ∧ b.ty.isNumeric = true) ∨ k = .int)
    (hA : ∀ st, Runs host codeA ⟨st, σ⟩ (eval host σ a) fun v => ⟨v :: st, σ⟩)
    (hB : ∀ st, Runs host codeB ⟨st, σ⟩ (eval host σ b) fun v => ⟨v :: st, σ⟩)
    (hrest : ∀ v w, HasTy σ.heap a.ty v → HasTy σ.heap b.ty w →
      Runs host rest ⟨promote host k w :: promote host k v :: st, σ⟩ (f v w) out) :
    Runs host (codeA ++ Emit.widenTo k a.ty ++ codeB ++ Emit.widenTo k b.ty ++ rest) ⟨st, σ⟩
      (do f (← eval host σ a) (← eval host σ b)) out := by
  have hka : k = .float ∧ a.ty.isNumeric = true ∨ k = .int := by tauto
  have hkb : k = .float ∧ b.ty.isNumeric = true ∨ k = .int := by tauto
  have hassoc : codeA ++ Emit.widenTo k a.ty ++ codeB ++ Emit.widenTo k b.ty ++ rest =
      (codeA ++ Emit.widenTo k a.ty) ++ ((codeB ++ Emit.widenTo k b.ty) ++ rest) := by
    simp only [List.append_assoc]
  rw [hassoc]
  refine ((hA st).snoc (Emit.straight_widenTo _ _) fun v hv =>
    work_widenTo ((eval_safe hσ a ha hfa).of_ok hv) hka).append fun v hv => ?_
  refine ((hB _).snoc (Emit.straight_widenTo _ _) fun w hw =>
    work_widenTo ((eval_safe hσ b hb hfb).of_ok hw) hkb).append fun w hw => ?_
  exact hrest v w ((eval_safe hσ a ha hfa).of_ok hv) ((eval_safe hσ b hb hfb).of_ok hw)

lemma push_computes {ins : Instr} {v : Value} (hs : ins.straight = true)
    (hwork : ∀ st, work host ins ⟨st, σ⟩ = .ok ⟨v :: st, σ⟩) :
    Computes host σ (return [ins]) (.ok v) ([·]) := by
  intro s code t hcode st
  obtain ⟨rfl, rfl⟩ := Emit.Gen.pure_ok.mp hcode
  exact .straight (by simpa [Straight] using hs) ((workAll_singleton _ _).trans (hwork st))

mutual

/-- The code of an expression leaves its value. -/
theorem expr_computes (hσ : σ.WellTyped Γ.statics Γ.slots) : (e : Expr) → (h : e.WellTyped Γ) →
    (hfree : e.callFree = true) → Computes host σ (Emit.expr e) (eval host σ e) ([·])
  | .int t i, _, _ => by
    rw [Emit.expr, eval]
    exact push_computes rfl fun _ => rfl
  | .real t x, _, _ => by
    rw [Emit.expr, eval]
    exact push_computes rfl fun _ => rfl
  | .text t s, _, _ => by
    rw [Emit.expr, eval]
    exact push_computes rfl fun _ => rfl
  | .read t place placeTy, ⟨hplace, hty, _⟩, hfree => by
    subst hty
    rw [Emit.expr, eval_read]
    exact loadVia_computes hσ hplace (path_computes hσ place hplace hfree)
  | .unary t .neg x, ⟨hx, hnum, _⟩, hfree => by
    intro s code t hcode st
    simp only [Emit.expr, Emit.Gen.bind_ok, Emit.Gen.pure_ok] at hcode
    obtain ⟨codeX, u, hX, rfl, rfl⟩ := hcode
    rw [eval]
    refine (expr_computes hσ x hx hfree hX st).append fun v hv => ?_
    exact .straight (by simp [Straight, Instr.straight])
      (work_neg ((eval_safe hσ x hx hfree).of_ok hv) hnum)
  | .unary t .not x, ⟨hx, hbool, _⟩, hfree => by
    intro s code t hcode st
    simp only [Emit.expr, Emit.Gen.bind_ok, Emit.Gen.pure_ok] at hcode
    obtain ⟨codeX, u, hX, rfl, rfl⟩ := hcode
    rw [eval]
    refine (expr_computes hσ x hx hfree hX st).append fun v hv => ?_
    exact .straight (by simp [Straight, Instr.straight])
      (work_not (hbool ▸ (eval_safe hσ x hx hfree).of_ok hv))
  | .binary ty op a b, ⟨ha, hb, r, hty, hr⟩, hfree => by
    intro s code t hcode st
    rw [Expr.callFree, Bool.and_eq_true_iff] at hfree
    have hoperands := Check.operands_of_binaryTy hty
    rw [Emit.expr] at hcode
    rw [eval]
    cases hop : Emit.relation? op with
    | none =>
      simp only [hop, Emit.arithmetic, Emit.Gen.bind_ok, Emit.Gen.pure_ok] at hcode
      obtain ⟨codeA, u, hA, codeB, u', hB, rfl, rfl⟩ := hcode
      have hk := Emit.operatorKind_widens hoperands hop hr
      refine runs_operands hσ ha hb hfree.1 hfree.2 hk (expr_computes hσ a ha hfree.1 hA)
        (expr_computes hσ b hb hfree.2 hB) fun v w hv hw => ?_
      refine .straight (by simp [Straight, Instr.straight]) ?_
      rw [workAll_singleton, work_arith hoperands hop hr hv hw, binary, orders_eq_none hop]
      rfl
    | some rel =>
      simp only [hop, Emit.relation, Emit.Gen.bind_ok, Emit.Gen.pure_ok] at hcode
      obtain ⟨yes, _, _, done, _, _, codeA, u, hA, codeB, u', hB, rfl, rfl⟩ := hcode
      obtain ⟨hcomp, -⟩ := hoperands.of_relation hop
      have hk := Emit.compareKind_widens hcomp
      rw [List.append_assoc _ (Emit.compare ..)]
      refine runs_operands hσ ha hb hfree.1 hfree.2 hk (expr_computes hσ a ha hfree.1 hA)
        (expr_computes hσ b hb hfree.2 hB) fun v w hv hw => ?_
      rw [binary, orders_of_relation hop]
      exact runs_relation hcomp hv hw

/-- The code that walks to a part of a variable leaves its value. -/
theorem path_computes (hσ : σ.WellTyped Γ.statics Γ.slots) : (p : Place) → (h : p.WellTyped Γ) →
    (hfree : p.callFree = true) → Computes host σ (Emit.path p) (fetch host σ p) ([·])
  | .root s, _, _ => by
    rw [Emit.path]
    exact loadObject_computes s
  | .field base record name t, h, hfree => by
    intro s code t hcode st
    simp only [Emit.path, Emit.Gen.bind_ok, Emit.Gen.pure_ok] at hcode
    obtain ⟨codeBase, u, hBase, rfl, rfl⟩ := hcode
    refine (runs_field hσ h hfree (path_computes hσ base h.1 hfree hBase st)).append fun loc hloc => ?_
    obtain ⟨a, rfl⟩ := locate_field hloc
    exact .straight (by simp [Straight, Instr.straight]) work_getField
  | .element base index low elem, h, hfree => by
    intro s code t hcode st
    simp only [Emit.path, Emit.Gen.bind_ok, Emit.Gen.pure_ok] at hcode
    obtain ⟨codeBase, u, hBase, codeIndex, v, hIndex, rfl, rfl⟩ := hcode
    have hfree' := Bool.and_eq_true_iff.mp hfree
    have hbase := path_computes hσ base h.1 hfree'.1 hBase st
    have hindex := expr_computes hσ index h.2.1 hfree'.2 hIndex
    refine (runs_element hσ h hfree hbase hindex).append fun loc hloc => ?_
    have hholds := (locate_safe hσ _ h hfree).of_ok hloc
    obtain ⟨a, i, rfl⟩ := locate_element hloc
    exact .straight (by simp [Straight, Instr.straight]) (work_arrayLoad hholds)

end

/-- The code of an address leaves what stands for the location. -/
theorem address_computes (hσ : σ.WellTyped Γ.statics Γ.slots) (p : Place) (h : p.WellTyped Γ)
    (hfree : p.callFree = true) :
    Computes host σ (Emit.address p) (locate host σ p) Location.operands := by
  intro s code t hcode st
  cases p with
  | root v =>
    simp only [Emit.address, Emit.Gen.pure_ok] at hcode
    obtain ⟨rfl, rfl⟩ := hcode
    exact .straight (Emit.straight_symbolAddress _) (work_symbolAddress hσ v h st)
  | field base record name ty =>
    rw [Emit.address] at hcode
    exact runs_field hσ h hfree (path_computes hσ base h.1 hfree hcode st)
  | element base index low elem =>
    simp only [Emit.address, Emit.Gen.bind_ok, Emit.Gen.pure_ok] at hcode
    obtain ⟨codeBase, u, hBase, codeIndex, v, hIndex, rfl, rfl⟩ := hcode
    have hfree' := Bool.and_eq_true_iff.mp hfree
    exact runs_element hσ h hfree (path_computes hσ base h.1 hfree'.1 hBase st)
      (expr_computes hσ index h.2.1 hfree'.2 hIndex)

lemma load_computes (hσ : σ.WellTyped Γ.statics Γ.slots) {d : Designator} (h : d.WellTyped Γ)
    (hfree : d.place.callFree = true) :
    Computes host σ (Emit.load d) (fetch host σ d.place) ([·]) := by
  rw [Emit.load, h.ty_eq]
  exact loadVia_computes hσ h.place (path_computes hσ d.place h.place hfree)

/-- The location has the form that the place gives it. -/
def Location.Of : Place → Location → Prop
  | .root ⟨_, .static name, _⟩, loc => loc = .static name
  | .root ⟨_, .slot n, _⟩, loc => loc = .slot n
  | .root ⟨_, .cell _, _⟩, loc => ∃ a, loc = .element a 0
  | .field _ _ name _, loc => ∃ a, loc = .field a name
  | .element .., loc => ∃ a i, loc = .element a i

lemma of_locate {p : Place} {loc : Location} (h : locate host σ p = .ok loc) : loc.Of p := by
  match p with
  | .root ⟨_, .static name, _⟩ | .root ⟨_, .slot n, _⟩ =>
    cases h
    rfl
  | .root ⟨_, .cell n, _⟩ =>
    simp only [locate, bind_eq_ok, pure_eq_ok] at h
    obtain ⟨-, -, a, -, rfl⟩ := h
    exact ⟨a, rfl⟩
  | .field .. => exact locate_field h
  | .element .. => exact locate_element h

/-- The store instruction writes to the location that its operands stand for. -/
lemma work_store {p : Place} {loc : Location} (hloc : loc.Of p) (hholds : loc.Holds σ p.ty)
    (v : Value) (st : List Value) :
    workAll host (Emit.store p.ty p) ⟨v :: (loc.operands ++ st), σ⟩ =
      (do return ⟨st, ← σ.write (.ofTy p.ty) v loc⟩) := by
  match p with
  | .root ⟨_, .static name, _⟩ | .root ⟨_, .slot n, _⟩ =>
    cases hloc
    exact workAll_singleton _ _
  | .root ⟨_, .cell n, _⟩ | .field .. =>
    obtain ⟨a, rfl⟩ := hloc
    exact workAll_singleton _ _
  | .element .. =>
    obtain ⟨a, i, rfl⟩ := hloc
    rw [← write_wrapped hholds]
    exact workAll_singleton _ _

lemma work_widen {heap : Heap} {t u : Ty} {v : Value} {st : List Value} (h : t.accepts u = true)
    (ht : t.isAggregate = false) (hv : HasTy heap u v) :
    workAll host (Emit.widen t u) ⟨v :: st, σ⟩ =
      (do return ⟨(← widened host t v) :: st, σ⟩) := by
  rcases Emit.widen_cases h with ⟨hsame, hcode⟩ | ⟨rfl, rfl, hcode⟩ <;> rw [hcode]
  · obtain rfl := Ty.eq_of_same hsame ht
    rw [widened]
    split_ifs with hreal
    · obtain rfl := Ty.eq_basic_of_is hreal
      obtain ⟨x, rfl⟩ := hv.eq_real
      rfl
    · rfl
  · obtain ⟨i, rfl⟩ := hv.eq_int rfl
    rfl

lemma runs_assign (hσ : σ.WellTyped Γ.statics Γ.slots) {target : Designator} {value : Expr}
    (htarget : target.WellTyped Γ) (hvalue : value.WellTyped Γ)
    (hscalar : target.ty.isAggregate = false) (haccepts : target.ty.accepts value.ty = true)
    (hplace : target.place.callFree = true) (hfree : value.callFree = true) {s t : Emit.Supply}
    {code : List Instr} (hcode : Emit.assign target value s = .ok (code, t)) (st : List Value) :
    Runs host code ⟨st, σ⟩ (assign host target value σ) fun τ => ⟨st, τ⟩ := by
  simp only [Emit.assign, Emit.Gen.bind_ok, Emit.Gen.pure_ok] at hcode
  obtain ⟨codeA, u, hA, codeV, v, hV, rfl, rfl⟩ := hcode
  simp only [List.append_assoc]
  refine (address_computes hσ _ htarget.place hplace hA st).append fun loc hloc => ?_
  refine (expr_computes hσ value hvalue hfree hV _).append fun v hv => ?_
  have hty := (eval_safe hσ value hvalue hfree).of_ok hv
  refine (Runs.straight (Emit.straight_widen _ _) (work_widen haccepts hscalar hty)).append
    fun w _ => ?_
  refine .straight (Emit.straight_store _ _) ?_
  rw [htarget.ty_eq]
  exact work_store (of_locate hloc) ((locate_safe hσ _ htarget.place hplace).of_ok hloc) w st

lemma runs_counter (hσ : σ.WellTyped Γ.statics Γ.slots) {counter : Designator}
    (h : counter.WellTyped Γ) (hord : counter.ty.isOrdinal = true)
    (hfree : counter.place.callFree = true) {s t : Emit.Supply} {code : List Instr}
    (hcode : Emit.load counter s = .ok (code, t)) (st : List Value) :
    Runs host code ⟨st, σ⟩ (counterValue host counter σ) fun i => ⟨.int i :: st, σ⟩ := by
  have hvalue : counterValue host counter σ = fetch host σ counter.place >>= asInt := by
    simp only [counterValue, fetch, bind_assoc]
  rw [hvalue]
  refine (load_computes hσ h hfree hcode st).recast fun v hv => ?_
  have hty := (fetch_safe hσ h.place hfree).of_ok hv
  rw [← h.ty_eq] at hty
  obtain ⟨i, rfl⟩ := hty.eq_int hord
  exact ⟨i, rfl, rfl⟩

lemma runs_stepCounter (hσ : σ.WellTyped Γ.statics Γ.slots) {counter : Designator}
    (h : counter.WellTyped Γ) (hord : counter.ty.isOrdinal = true)
    (hfree : counter.place.callFree = true) (down : Bool) {s t : Emit.Supply} {code : List Instr}
    (hcode : Emit.stepCounter counter down s = .ok (code, t)) (st : List Value) :
    Runs host code ⟨st, σ⟩ (advance host counter down σ) fun τ => ⟨st, τ⟩ := by
  simp only [Emit.stepCounter, Emit.Gen.bind_ok, Emit.Gen.pure_ok] at hcode
  obtain ⟨codeA, u, hA, codeL, v, hL, rfl, rfl⟩ := hcode
  have hassoc : ∀ one store : List Instr, codeA ++ codeL ++ one ++ store =
      codeA ++ ((codeL ++ one) ++ store) := by simp
  rw [hassoc]
  refine (address_computes hσ _ h.place hfree hA st).append fun loc hloc => ?_
  have hstepped : ∀ i : Int32, workAll host
      [.pushInt 1, .arith (if down then .sub else .add) .int] ⟨.int i :: (loc.operands ++ st), σ⟩ =
      .ok ⟨.int (if down then i - 1 else i + 1) :: (loc.operands ++ st), σ⟩ := by
    cases down <;> exact fun _ => rfl
  refine ((runs_counter hσ h hord hfree hL _).snoc (by simp [Straight, Instr.straight])
    fun i _ => hstepped i).append fun i _ => ?_
  refine .straight (Emit.straight_store _ _) ?_
  rw [h.ty_eq]
  exact work_store (of_locate hloc) ((locate_safe hσ _ h.place hfree).of_ok hloc) _ st

/-- A jump on a condition, taken if the condition is `wanted`. -/
lemma follows_test (hσ : σ.WellTyped Γ.statics Γ.slots) {cond : Expr} (h : cond.Condition Γ)
    (hfree : cond.callFree = true) {s t : Emit.Supply} {codeCond code : List Instr} {p q : Nat}
    {l : Label} (wanted : Bool) (hcond : Emit.expr cond s = .ok (codeCond, t))
    (hn : (boundLabels code).Nodup) (hcode : CodeAt code p codeCond)
    (hjump : code[p + codeCond.length]? = some (.ifZero (if wanted then .ne else .eq) l))
    (hl : code[q]? = some (.label l)) (st : List Value) :
    Follows host code ⟨p, st, σ⟩ (isTrue host cond σ)
      fun b => ⟨if b = wanted then q else p + codeCond.length + 1, st, σ⟩ := by
  refine (expr_computes hσ cond h.wellTyped hfree hcond st hn hcode).bind fun v hv => ?_
  obtain ⟨i, rfl⟩ := ((eval_safe hσ cond h.wellTyped hfree).of_ok hv).eq_int (by rw [h.ty_eq]; rfl)
  refine .step (step_ifZero hn hjump hl) (.ok ?_)
  cases wanted <;> by_cases hi : i = 0 <;> simp [Relation.holds, hi]

end

end PascalJvm.Run
