import Mathlib.Tactic
import PascalJvm.Proofs.Cells

/-!
# Running the code of calls

The code of an expression with calls leaves its value on the stack, and the store as the
expression does (`World.expr_computes`). The arguments of a call are pushed one after the other
(`World.pushArgs_pushes`), each new cell in its slot; no step changes a slot that is in use, so each
cell is still in its slot when it is stored back (`World.copyBack_storesBack`).
-/
namespace PascalJvm.Run

open Jvm Typed

namespace World

variable {w : World} {Γ : Variables} {K : Set Nat} {σ μ : Store}

lemma fetch_root (s : Symbol) : w.fetch (.root s) σ =
    (do return (← Run.fetch w.toHost σ (.root s), σ)) := by
  simp only [World.fetch, reading, World.position, Run.fetch]
  simp

/-- Straight code that leaves a result and does not touch the store. -/
lemma Runs.unchanged {kept : Set Nat} {block : List Instr} {α : Type} {y : Eval α} {n : Nat}
    {f : α → List Value} {st st' : List Value} (hs : Straight block) (hq : Quiet block)
    (hwork : workAll w.toHost block ⟨st', μ⟩ = (do return ⟨f (← y) ++ st, μ⟩))
    (hagree : Agree n σ μ) : w.Runs kept block ⟨st', μ⟩ (do return (← y, σ))
      fun r s' => s'.stack = f r.1 ++ st ∧ Agree n r.2 s'.store := by
  refine .straight (f := fun r => ⟨f r.1 ++ st, μ⟩) hs (hq.spares _) ?_ fun r hr => ⟨rfl, ?_⟩
  · simp only [hwork, bind_assoc, pure_bind]
  · simp only [bind_eq_ok, pure_eq_ok] at hr
    obtain ⟨v, -, rfl⟩ := hr
    exact hagree

lemma push_computes {ins : Instr} {v : Value} {x : Store → Eval (Value × Store)}
    (hs : ins.straight = true) (hq : Quiet [ins])
    (hwork : ∀ st μ, work w.toHost ins ⟨st, μ⟩ = .ok ⟨v :: st, μ⟩) (hx : ∀ σ, x σ = .ok (v, σ)) :
    w.Computes Γ [] (return [ins]) x ([·]) := by
  intro s code t hcode _ K σ μ _ hagree st
  obtain ⟨rfl, rfl⟩ := Emit.Gen.pure_ok.mp hcode
  rw [hx]
  refine .unchanged (y := .ok v) (f := ([·])) (by simpa [Straight] using hs) hq ?_ hagree
  rw [workAll_singleton, hwork]
  rfl

lemma loadObject_computes {s : Symbol} (h : s.Declared Γ) :
    w.Computes Γ [] (Emit.loadObject s) (w.fetch (.root s)) ([·]) := by
  intro s₀ code t hcode _ K σ μ _ hagree st
  obtain ⟨hs, hwork⟩ : Straight code ∧ workAll w.toHost code ⟨st, μ⟩ = _ :=
    work_loadObject hcode st
  have hq : Quiet code := by
    obtain ⟨name, storage, ty⟩ := s
    cases storage with
    | static name =>
      obtain ⟨rfl, rfl⟩ := Emit.Gen.pure_ok.mp hcode
      simp [Quiet]
    | slot n =>
      obtain ⟨rfl, rfl⟩ := Emit.Gen.pure_ok.mp hcode
      simp [Quiet]
    | cell n => exact (Emit.Gen.throw_ok.mp hcode).elim
  rw [hagree.fetch_root h] at hwork
  rw [fetch_root]
  exact .unchanged (f := ([·])) hs hq hwork hagree

lemma loadVia_computes {p : Place} (h : p.WellTyped Γ) {walk : Emit.Gen (List Instr)}
    (hwalk : w.Computes Γ p.lent walk (w.fetch p) ([·])) :
    w.Computes Γ p.lent (Emit.loadVia walk p.ty p) (w.fetch p) ([·]) := by
  cases p with
  | root s =>
    intro s₀ code t hcode _ K σ μ hσ hagree st
    obtain ⟨rfl, rfl⟩ := Emit.Gen.pure_ok.mp hcode
    have hwork : workAll w.toHost _ ⟨st, μ⟩ = _ :=
      work_loadSymbol (hagree.wellTyped hσ.wellTyped) s h st
    rw [hagree.fetch_root h] at hwork
    rw [fetch_root]
    exact .unchanged (f := ([·])) (Emit.straight_loadSymbol _ _) (quiet_loadSymbol _ _) hwork hagree
  | field => exact hwalk
  | element => exact hwalk

lemma root_computes {s : Symbol} (h : s.Declared Γ) :
    w.Computes Γ [] (return Emit.symbolAddress s) (w.position (.root s)) Location.operands := by
  intro s₀ code t hcode _ K σ μ hσ hagree st
  obtain ⟨rfl, rfl⟩ := Emit.Gen.pure_ok.mp hcode
  have hwork : workAll w.toHost _ ⟨st, μ⟩ = _ :=
    work_symbolAddress (hagree.wellTyped hσ.wellTyped) s h st
  rw [hagree.locate_root h] at hwork
  rw [World.position]
  exact .unchanged (Emit.straight_symbolAddress _) (quiet_symbolAddress _) hwork hagree

/-- The record of a field stands for the field. -/
lemma field_computes (hw : w.Sound Γ.statics) {base : Place} {record name : String} {t : Ty}
    (h : (Place.field base record name t).WellTyped Γ)
    (hbase : w.Computes Γ base.lent (Emit.path base) (w.fetch base) ([·])) :
    w.Computes Γ base.lent (Emit.path base) (w.position (.field base record name t))
      Location.operands := by
  intro s code t' hcode hs K σ μ hσ hagree st
  obtain ⟨hwt, fields, hty, -⟩ := h
  rw [World.position]
  refine (hbase hcode hs hσ hagree st).recast fun (v, τ) s' hv ⟨hstack, hagree'⟩ => ?_
  have hvty := ((fetch_safe hw hwt hσ).of_ok hv).2.1
  obtain ⟨a, rfl⟩ := hvty.eq_ref (by rw [hty]; rfl)
  exact ⟨(.field a name, τ), rfl, hstack, hagree'⟩

/-- The array and the index from zero stand for an element. -/
lemma element_computes (hw : w.Sound Γ.statics) {base : Place} {index : Expr} {low : Int32}
    {elem : Ty} (h : (Place.element base index low elem).WellTyped Γ)
    (hbase : w.Computes Γ base.lent (Emit.path base) (w.fetch base) ([·]))
    (hindex : w.Computes Γ index.lent (Emit.expr index) (w.value index) ([·])) :
    w.Computes Γ (base.lent ++ index.lent) (Emit.address (.element base index low elem))
      (w.position (.element base index low elem)) Location.operands := by
  intro s code t hcode hs K σ μ hσ hagree st
  simp only [Emit.address, Emit.Gen.bind_ok, Emit.Gen.pure_ok] at hcode
  obtain ⟨codeBase, u, hBase, codeIndex, v, hIndex, rfl, rfl⟩ := hcode
  obtain ⟨hwt, hindexTy, hord, len, hty⟩ := h
  have hslot := (Emit.path_spans base _ _ _ hBase).2
  rw [World.position, List.append_assoc]
  refine ((hbase hBase hs hσ hagree st).mono (spared_mono le_rfl (by simp))).append
    fun q s' hr _ hout => ?_
  obtain ⟨r, τ⟩ := q
  obtain ⟨stack, ν⟩ := s'
  obtain ⟨hstack, hagree⟩ := hout
  obtain rfl : stack = [r] ++ st := hstack
  obtain ⟨hτ, hrty, -⟩ := (fetch_safe hw hwt hσ).of_ok hr
  obtain ⟨a, rfl⟩ := hrty.eq_ref (by rw [hty]; rfl)
  change w.Runs _ _ _ (w.value index τ >>= _) _
  refine ((hindex hIndex (hslot ▸ hs) hτ.sound hagree _).mono
    (spared_mono hslot.ge (by simp))).append fun r s' hq _ hout => ?_
  obtain ⟨q, υ⟩ := r
  obtain ⟨stack, ν⟩ := s'
  obtain ⟨hstack, hagree⟩ := hout
  obtain rfl : stack = [q] ++ ([.ref a] ++ st) := hstack
  have hqty := ((value_safe hw index hindexTy hτ.sound).of_ok hq).2.1
  obtain ⟨i, rfl⟩ := hqty.eq_int hord
  exact .unchanged (y := .ok (Location.element a (i.toInt - low.toInt)))
    (Emit.straight_rebase low) (quiet_rebase low) (work_rebase low i _) hagree

/-- The last instruction of a path reads from the location. -/
lemma read_leaves {n : Nat} {p : Place} {lent : List Nat} {code : List Instr} {ins : Instr}
    (hw : w.Sound Γ.statics) (hp : p.WellTyped Γ)
    (hcode : w.Leaves Γ n lent code (w.position p) Location.operands)
    (hs : ins.straight = true) (hq : Quiet [ins])
    (hread : ∀ (loc : Location) (μ : Store) st, loc.Of p → loc.Holds μ p.ty →
      workAll w.toHost [ins] ⟨loc.operands ++ st, μ⟩ = (do return ⟨(← μ.read loc) :: st, μ⟩)) :
    w.Leaves Γ n lent (code ++ [ins]) (w.fetch p) ([·]) := by
  intro K σ μ hσ hagree st
  refine (hcode hσ hagree st).append fun (loc, τ) ⟨stack, ν⟩ hloc _ ⟨hstack, hagree⟩ => ?_
  obtain rfl : stack = loc.operands ++ st := hstack
  obtain ⟨-, hholds, hclear⟩ := (position_safe hw p hp hσ).of_ok hloc
  have hwork := hread loc ν st (of_position hloc) (hagree.holds hclear hholds)
  rw [hagree.read hclear] at hwork
  exact .unchanged (f := ([·])) (by simpa [Straight] using hs) hq hwork hagree

/-- The jump of a comparison is taken if the operands are related. -/
lemma follows_compare {code : List Instr} {kept : Set Nat} {p q : Nat} {rel : Relation}
    {yes : Label} {a b : Ty} {u v : Value} {st : List Value} {heap : Heap}
    (hn : (boundLabels code).Nodup) (hcode : CodeAt code p (Emit.compare rel a b yes))
    (hyes : code[q]? = some (.label yes)) (h : Check.comparable a b = true)
    (hu : HasTy heap a u) (hv : HasTy heap b v) :
    w.Follows code kept ⟨p, promote w.toHost (Emit.compareKind a b) v ::
        promote w.toHost (Emit.compareKind a b) u :: st, μ⟩ (compare w.toHost rel.holds u v)
      fun related d =>
        d = ⟨if related then q else p + (Emit.compare rel a b yes).length, st, μ⟩ := by
  rcases Emit.compare_cases h with ⟨hk, ha, hb, hreal, hblock⟩ | ⟨hk, rfl, rfl, hblock⟩ |
    ⟨hk, ha, hb, hblock⟩ <;> rw [hk] <;> rw [hblock] at hcode ⊢
  · rw [codeAt_cons, codeAt_singleton] at hcode
    obtain ⟨x, hx, hpx⟩ := promote_float w.toHost hu ha
    obtain ⟨y, hy, hpy⟩ := promote_float w.toHost hv hb
    rw [compare_of_real _ hu hv hreal, hx, hy, hpx, hpy]
    exact .after (.of_step (step_of_act hcode.1 rfl rfl) rfl)
      (.after (.of_step (step_ifZero hn hcode.2 hyes) rfl) (.ok rfl))
  · rw [codeAt_cons, codeAt_singleton] at hcode
    obtain ⟨x, rfl⟩ := hu.eq_text
    obtain ⟨y, rfl⟩ := hv.eq_text
    exact .after (.of_step (step_of_act hcode.1 rfl rfl) rfl)
      (.after (.of_step (step_ifZero hn hcode.2 hyes) rfl) (.ok rfl))
  · rw [codeAt_singleton] at hcode
    obtain ⟨i, rfl⟩ := hu.eq_int ha
    obtain ⟨j, rfl⟩ := hv.eq_int hb
    exact .after (.of_step (step_ifCompare hn hcode hyes) rfl) (.ok rfl)

/-- A comparison leaves 1 or 0. -/
lemma runs_relation {kept : Set Nat} {rel : Relation} {yes done : Label} {a b : Ty} {u v : Value}
    {st : List Value} {heap : Heap} {n : Nat} (h : Check.comparable a b = true)
    (hu : HasTy heap a u) (hv : HasTy heap b v) (hagree : Agree n σ μ) :
    w.Runs kept (Emit.compare rel a b yes ++
        [.pushInt 0, .goto done, .label yes, .pushInt 1, .label done])
      ⟨promote w.toHost (Emit.compareKind a b) v ::
        promote w.toHost (Emit.compareKind a b) u :: st, μ⟩
      (do return (.int (ofBool (← compare w.toHost rel.holds u v)), σ))
      fun r s' => s'.stack = [r.1] ++ st ∧ Agree n r.2 s'.store := by
  intro code p hn hcode
  simp only [codeAt_append, codeAt_cons, codeAt_nil, and_true] at hcode
  obtain ⟨hcompare, hzero, hgoto, hyes, hone, hdone⟩ := hcode
  refine (follows_compare hn hcompare hyes h hu hv).bind fun related d _ _ hd => ?_
  rw [hd]
  cases related with
  | true =>
    exact .after (.of_step (step_label hyes) rfl) (.after (.of_step (step_of_act hone rfl rfl) rfl)
      (.after (.of_step (step_label hdone) rfl)
        (.ok ⟨by simp [Nat.add_assoc], by simp [ofBool], hagree⟩)))
  | false =>
    exact .after (.of_step (step_of_act hzero rfl rfl) rfl)
      (.after (.of_step (step_goto hn hgoto hdone) rfl) (.after (.of_step (step_label hdone) rfl)
        (.ok ⟨by simp [Nat.add_assoc], by simp [ofBool], hagree⟩)))

/-- Both operands, each widened for the operator. -/
lemma operands_leave {a b : Expr} {k : Kind} {codeA codeB rest : List Instr} {n : Nat}
    {f : Value → Value → Eval Value} (hw : w.Sound Γ.statics) (ha : a.WellTyped Γ)
    (hb : b.WellTyped Γ)
    (hk : (k = .float ∧ a.ty.isNumeric = true ∧ b.ty.isNumeric = true) ∨ k = .int)
    (hA : w.Leaves Γ n a.lent codeA (w.value a) ([·]))
    (hB : w.Leaves Γ n b.lent codeB (w.value b) ([·]))
    (hrest : ∀ kept st u v σ μ, HasTy σ.heap a.ty u → HasTy σ.heap b.ty v →
      Agree Γ.slots.length σ μ →
      w.Runs kept rest ⟨promote w.toHost k v :: promote w.toHost k u :: st, μ⟩
        (do return (← f u v, σ))
        fun r s' => s'.stack = [r.1] ++ st ∧ Agree Γ.slots.length r.2 s'.store) :
    w.Leaves Γ n (a.lent ++ b.lent)
      (codeA ++ Emit.widenTo k a.ty ++ codeB ++ Emit.widenTo k b.ty ++ rest)
      (fun σ => w.value a σ >>= fun r => w.value b r.2 >>= fun q => do
        return (← f r.1 q.1, q.2)) ([·]) := by
  intro K σ μ hσ hagree st
  have hka : k = .float ∧ a.ty.isNumeric = true ∨ k = .int := by tauto
  have hkb : k = .float ∧ b.ty.isNumeric = true ∨ k = .int := by tauto
  have hassoc : codeA ++ Emit.widenTo k a.ty ++ codeB ++ Emit.widenTo k b.ty ++ rest =
      (codeA ++ Emit.widenTo k a.ty) ++ ((codeB ++ Emit.widenTo k b.ty) ++ rest) := by
    simp only [List.append_assoc]
  rw [hassoc]
  have hfirst : w.Runs (spared n (a.lent ++ b.lent)) (codeA ++ Emit.widenTo k a.ty) ⟨st, μ⟩
      (w.value a σ) fun r s' => s'.stack = promote w.toHost k r.1 :: st ∧
        Agree Γ.slots.length r.2 s'.store := by
    refine ((hA hσ hagree st).mono (spared_mono le_rfl (by simp))).snoc (Emit.straight_widenTo _ _)
      ((quiet_widenTo _ _).spares _) fun (u, τ) ⟨stack, ν⟩ hu ⟨hstack, hagree⟩ => ?_
    obtain rfl : stack = [u] ++ st := hstack
    exact ⟨_, work_widenTo ((value_safe hw a ha hσ).of_ok hu).2.1 hka, rfl, hagree⟩
  refine hfirst.append fun (u, τ) ⟨stack, ν⟩ hu _ ⟨hstack, hagree⟩ => ?_
  obtain rfl : stack = promote w.toHost k u :: st := hstack
  obtain ⟨hτ, huty, -⟩ := (value_safe hw a ha hσ).of_ok hu
  have hsecond : w.Runs (spared n (a.lent ++ b.lent)) (codeB ++ Emit.widenTo k b.ty)
      ⟨promote w.toHost k u :: st, ν⟩ (w.value b τ) fun r s' =>
        s'.stack = promote w.toHost k r.1 :: promote w.toHost k u :: st ∧
          Agree Γ.slots.length r.2 s'.store := by
    refine ((hB hτ.sound hagree _).mono (spared_mono le_rfl (by simp))).snoc
      (Emit.straight_widenTo _ _) ((quiet_widenTo _ _).spares _)
      fun (v, υ) ⟨stack, ν⟩ hv ⟨hstack, hagree⟩ => ?_
    obtain rfl : stack = [v] ++ (promote w.toHost k u :: st) := hstack
    exact ⟨_, work_widenTo ((value_safe hw b hb hτ.sound).of_ok hv).2.1 hkb, rfl, hagree⟩
  refine hsecond.append fun (v, υ) ⟨stack, ν⟩ hv _ ⟨hstack, hagree⟩ => ?_
  obtain rfl : stack = promote w.toHost k v :: promote w.toHost k u :: st := hstack
  obtain ⟨hυ, hvty, -⟩ := (value_safe hw b hb hτ.sound).of_ok hv
  exact hrest _ _ _ _ _ _ (hυ.hasTy huty) hvty hagree

/-- An operator with one operand works on the value that the operand leaves. -/
lemma unary_computes {x : Expr} {ty : Ty} {op : UnOp} {tail : List Instr} (hw : w.Sound Γ.statics)
    (hx : x.WellTyped Γ) (hX : w.Computes Γ x.lent (Emit.expr x) (w.value x) ([·]))
    (hs : Straight tail) (hq : Quiet tail)
    (hwork : ∀ v st (σ μ : Store), HasTy σ.heap x.ty v →
      workAll w.toHost tail ⟨v :: st, μ⟩ = (do return ⟨(← unary w.toHost op v) :: st, μ⟩)) :
    w.Computes Γ x.lent (do return (← Emit.expr x) ++ tail) (w.value (.unary ty op x)) ([·]) := by
  intro s code t hcode hslots K σ μ hσ hagree st
  simp only [Emit.Gen.bind_ok, Emit.Gen.pure_ok] at hcode
  obtain ⟨codeX, u, hcodeX, rfl, rfl⟩ := hcode
  rw [World.value]
  refine (hX hcodeX hslots hσ hagree st).append fun r s' hr _ hout => ?_
  obtain ⟨v, τ⟩ := r
  obtain ⟨stack, ν⟩ := s'
  obtain ⟨hstack, hagree⟩ := hout
  obtain rfl : stack = [v] ++ st := hstack
  exact .unchanged (f := ([·])) hs hq
    (hwork v st τ ν ((value_safe hw x hx hσ).of_ok hr).2.1) hagree

lemma arithmetic_computes {op : BinOp} {a b : Expr} {ty r : Ty} (hw : w.Sound Γ.statics)
    (ha : a.WellTyped Γ) (hb : b.WellTyped Γ) (hoperands : Check.Operands op a.ty b.ty r)
    (hop : Emit.relation? op = none) (hr : r.Retypes ty)
    (hA : w.Computes Γ a.lent (Emit.expr a) (w.value a) ([·]))
    (hB : w.Computes Γ b.lent (Emit.expr b) (w.value b) ([·])) :
    w.Computes Γ (a.lent ++ b.lent)
      (Emit.arithmetic op ty a.ty b.ty (Emit.expr a) (Emit.expr b))
      (w.value (.binary ty op a b)) ([·]) := by
  intro s code t hcode hs K σ μ hσ hagree st
  simp only [Emit.arithmetic, Emit.Gen.bind_ok, Emit.Gen.pure_ok] at hcode
  obtain ⟨codeA, u, hcodeA, codeB, u', hcodeB, rfl, rfl⟩ := hcode
  have hslot := (Emit.expr_spans a _ _ _ hcodeA).2
  have hleaves := hB hcodeB (hslot ▸ hs)
  rw [hslot] at hleaves
  rw [World.value]
  refine operands_leave hw ha hb (Emit.operatorKind_widens hoperands hop hr) (hA hcodeA hs)
    hleaves ?_ hσ hagree st
  intro kept st u v σ μ hu hv hagree
  refine .unchanged (f := ([·])) (by simp [Straight, Instr.straight]) (by simp [Quiet]) ?_ hagree
  rw [workAll_singleton, work_arith hoperands hop hr hu hv, binary, orders_eq_none hop]
  rfl

lemma relation_computes {op : BinOp} {rel : Relation} {a b : Expr} {ty : Ty}
    (hw : w.Sound Γ.statics) (ha : a.WellTyped Γ) (hb : b.WellTyped Γ)
    (hcomp : Check.comparable a.ty b.ty = true) (hop : Emit.relation? op = some rel)
    (hA : w.Computes Γ a.lent (Emit.expr a) (w.value a) ([·]))
    (hB : w.Computes Γ b.lent (Emit.expr b) (w.value b) ([·])) :
    w.Computes Γ (a.lent ++ b.lent) (Emit.relation rel a.ty b.ty (Emit.expr a) (Emit.expr b))
      (w.value (.binary ty op a b)) ([·]) := by
  intro s code t hcode hs K σ μ hσ hagree st
  simp only [Emit.relation, Emit.Gen.bind_ok, Emit.Gen.pure_ok] at hcode
  obtain ⟨yes, s₁, hyes, done, s₂, hdone, codeA, u, hcodeA, codeB, u', hcodeB, rfl, rfl⟩ := hcode
  have hslot₁ := (Emit.Gen.freshLabel_ok.mp hyes).2.2.1
  have hslot₂ := (Emit.Gen.freshLabel_ok.mp hdone).2.2.1
  have hslot := (Emit.expr_spans a _ _ _ hcodeA).2
  have hleavesA := hA hcodeA (by omega)
  have hleavesB := hB hcodeB (by omega)
  rw [hslot] at hleavesB
  rw [hslot₂, hslot₁] at hleavesA hleavesB
  rw [World.value, List.append_assoc _ (Emit.compare ..)]
  refine operands_leave hw ha hb (Emit.compareKind_widens hcomp) hleavesA hleavesB ?_ hσ hagree st
  intro kept st u v σ μ hu hv hagree
  rw [binary, orders_of_relation hop]
  simp only [bind_assoc, pure_bind]
  exact runs_relation hcomp hu hv hagree

/-- A method is called on its arguments, which stand on the stack with the last one on top. -/
lemma step_invokeStatic {code : List Instr} {p : Nat} {m : MethodRef} {args st : List Value}
    (h : code[p]? = some (.invokeStatic m)) (hlen : args.length = m.params.length) :
    w.step code ⟨p, args.reverse ++ st, μ⟩ = w.call m args μ.shared >>= fun r =>
      .ok ⟨p + 1, r.1.toList ++ st, μ.resume r.2⟩ := by
  simp only [World.step, h, Store.orStuck]
  change (w.act (.invokeStatic m) ⟨args.reverse ++ st, μ⟩ >>= _) = _
  have htake : ((args.reverse ++ st).take m.params.length).reverse = args := by
    rw [List.take_left' (by simpa using hlen), List.reverse_reverse]
  have hdrop : (args.reverse ++ st).drop m.params.length = st :=
    List.drop_left' (by simpa using hlen)
  rw [World.act, if_pos (by simp [hlen]), htake, hdrop]
  cases w.call m args μ.shared <;> rfl

/-- The first arguments are on the stack, with the last one on top, and each new cell is in its
slot. -/
structure Pushed (w : World) (n : Nat) (code : List Instr) (c : Config) (st : List Value)
    (lo hi : Nat) (cells : List (Option Nat)) (passed : List Passed) (τ : Store) (d : Config) :
    Prop where
  stack : d.state.stack = (passed.map Passed.operand).reverse ++ st
  agree : Agree n τ d.state.store
  cells : List.Forall₂ (w.CellHeld code c d lo hi) cells passed

/-- The code pushes one argument. -/
def PushesOne (w : World) (Γ : Variables) (first : Store → Eval (Passed × Store)) (lent : List Nat)
    (lo hi : Nat) (block : List Instr) (cell : Option Nat) : Prop :=
  ∀ ⦃K σ μ⦄, σ.Sound Γ.statics Γ.slots K → Agree Γ.slots.length σ μ → ∀ ⦃code pc⦄ st,
    (boundLabels code).Nodup → CodeAt code pc block →
    w.Follows code (spared lo lent) ⟨pc, st, μ⟩ (first σ) fun r d => d.pc = pc + block.length ∧
      w.Pushed Γ.slots.length code ⟨pc, st, μ⟩ st lo hi [cell] [r.1] r.2 d

lemma passRef_pushes {place : Place} {ty : Ty} {load : Emit.Gen (List Instr)} {s t : Emit.Supply}
    {block : List Instr} {cell : Option Nat} (hw : w.Sound Γ.statics) (hplace : place.WellTyped Γ)
    (hload : w.Computes Γ place.lent load (w.fetch place) ([·])) (hspans : Emit.Spans load)
    (h : Emit.passRef ty place load s = .ok ((block, cell), t)) (hs : Γ.slots.length ≤ s.slot) :
    w.PushesOne Γ (w.lend ty place (w.fetch place)) place.lent s.slot t.slot block cell := by
  intro K σ μ hσ hagree code pc st hn hcode
  unfold Emit.passRef at h
  unfold World.lend
  split_ifs at h ⊢ with hagg
  · simp only [Emit.Gen.bind_ok, Emit.Gen.pure_ok, Prod.mk.injEq] at h
    obtain ⟨codeL, u, hcodeL, ⟨rfl, rfl⟩, rfl⟩ := h
    refine (hload hcodeL hs hσ hagree st hn hcode).bind fun r d _ _ hout => ?_
    obtain ⟨hpc, hstack, hagree⟩ := hout
    exact .ok ⟨hpc, hstack, hagree, .cons trivial .nil⟩
  · cases hown : Emit.ownCell? place with
    | some m =>
      simp only [hown, Emit.Gen.pure_ok, Prod.mk.injEq] at h ⊢
      obtain ⟨⟨rfl, rfl⟩, rfl⟩ := h
      obtain ⟨name, ty', rfl⟩ := Emit.eq_root_of_ownCell hown
      have hm : (Location.slot m).Clear Γ.slots.length K := (List.getElem?_eq_some_iff.mp hplace).1
      have hruns : w.Runs (spared s.slot (Place.root ⟨name, .cell m, ty'⟩).lent) [.load .ref m]
          ⟨st, μ⟩ (do return (← σ.read (.slot m), σ)) fun r s' =>
            s'.stack = [r.1] ++ st ∧ Agree Γ.slots.length r.2 s'.store := by
        refine .unchanged (f := ([·])) (by simp [Straight, Instr.straight]) (by simp [Quiet]) ?_
          hagree
        rw [workAll_singleton, work, hagree.read hm]
        rfl
      have hread : (do return (Passed.direct (← σ.read (.slot m)), σ) : Eval (Passed × Store)) =
          (do return (← σ.read (.slot m), σ)) >>= fun r => .ok (.direct r.1, r.2) := by
        simp only [bind_assoc, pure_bind]
        rfl
      rw [hread]
      refine (hruns hn hcode).bind fun r d _ _ hout => ?_
      obtain ⟨hpc, hstack, hagree⟩ := hout
      exact .ok ⟨hpc, hstack, hagree, .cons trivial .nil⟩
    | none =>
      simp only [hown, Emit.Gen.bind_ok, Emit.Gen.pure_ok, Prod.mk.injEq] at h ⊢
      obtain ⟨⟨code', cell'⟩, u, hcode', ⟨rfl, rfl⟩, rfl⟩ := h
      refine (intoCell_follows hw hplace hload hcode' hspans hs hσ hagree hn hcode).imp
        fun r d _ _ hout => ?_
      obtain ⟨hpc, hstack, hagree, hheld⟩ := hout
      exact ⟨hpc, hstack, hagree, .cons hheld .nil⟩

lemma work_widened {p : Passing} {u : Ty} {v : Value} {heap : Heap} {st : List Value}
    {host : Host} (h : p.ty.accepts u = true) (hv : HasTy heap u v) :
    workAll host (Emit.widen p.ty u) ⟨v :: st, μ⟩ =
      (do return ⟨(← widened host p.ty v) :: st, μ⟩) := by
  cases hagg : p.ty.isAggregate with
  | false => exact work_widen h hagg hv
  | true =>
    have hreal : p.ty.is .real = false := by
      cases hty : p.ty <;> simp_all [Ty.is, Ty.isAggregate]
    simp only [Emit.widen, widened, hreal, Bool.false_and, Bool.false_eq_true, if_false]
    rfl

lemma give_pushes {p : Passing} {e : Expr} {s t : Emit.Supply} {block : List Instr}
    (hw : w.Sound Γ.statics) (he : e.WellTyped Γ) (haccepts : p.ty.accepts e.ty = true)
    (hcompute : w.Computes Γ e.lent (Emit.expr e) (w.value e) ([·]))
    (h : Emit.expr e s = .ok (block, t)) (hs : Γ.slots.length ≤ s.slot) :
    w.PushesOne Γ (w.give p.ty (w.value e)) e.lent s.slot t.slot (block ++ Emit.widen p.ty e.ty)
      none := by
  intro K σ μ hσ hagree code pc st hn hcode
  have hruns : w.Runs (spared s.slot e.lent) (block ++ Emit.widen p.ty e.ty) ⟨st, μ⟩
      (w.give p.ty (w.value e) σ) fun r s' =>
        s'.stack = [r.1.operand] ++ st ∧ Agree Γ.slots.length r.2 s'.store ∧
          ∃ v, r.1 = .direct v := by
    refine (hcompute h hs hσ hagree st).append fun r s' hv _ hout => ?_
    obtain ⟨v, τ⟩ := r
    obtain ⟨stack, ν⟩ := s'
    obtain ⟨hstack, hagree⟩ := hout
    obtain rfl : stack = [v] ++ st := hstack
    have hty := ((value_safe hw e he hσ).of_ok hv).2.1
    refine .straight (f := fun r => ⟨r.1.operand :: st, ν⟩) (Emit.straight_widen _ _)
      ((quiet_widen _ _).spares _) ?_ fun r hr => ?_
    · change workAll _ _ ⟨v :: st, ν⟩ = _
      rw [work_widened haccepts hty]
      simp only [bind_assoc, pure_bind, Passed.operand]
    · simp only [bind_eq_ok, pure_eq_ok] at hr
      obtain ⟨v', -, rfl⟩ := hr
      exact ⟨rfl, hagree, v', rfl⟩
  refine (hruns hn hcode).imp fun r d _ _ hout => ?_
  obtain ⟨x, τ⟩ := r
  obtain ⟨hpc, hstack, hagree, v, hx⟩ := hout
  dsimp only at hx
  subst hx
  exact ⟨hpc, hstack, hagree, .cons trivial .nil⟩

/-- One more argument below the others. -/
lemma Pushed.cons {code : List Instr} {c d e : Config} {st : List Value} {lo mid hi : Nat}
    {cell : Option Nat} {cells : List (Option Nat)} {x : Passed} {passed : List Passed}
    {τ υ : Store} {kept kept' : Set Nat} {m : Nat} (h : w.Pushed m code c st lo mid [cell] [x] τ d)
    (h' : w.Pushed m code d (x.operand :: st) mid hi cells passed υ e)
    (hcd : w.Leads code kept c d) (hde : w.Leads code kept' d e) (hlo : lo ≤ mid) (hhi : mid ≤ hi)
    (hkept : ∀ n, lo ≤ n → n < mid → n ∈ kept') :
    w.Pushed m code c st lo hi (cell :: cells) (x :: passed) υ e where
  stack := by
    rw [h'.stack]
    simp
  agree := h'.agree
  cells := by
    refine .cons ?_ (h'.cells.imp fun _ _ hy => ?_)
    · cases h.cells with
      | cons hx _ =>
        exact hx.extend le_rfl hhi fun n a hn hn' hheld => hheld.after hde (hkept n hn hn')
    · exact hy.extend hlo le_rfl fun n a _ _ hheld => hheld.before hcd

/-- The code pushes the arguments, with the slots from `lo` to `hi` for the cells. -/
def Pushes (w : World) (Γ : Variables) (params : List Passing) (args : List Arg) (lo hi : Nat)
    (block : List Instr) (cells : List (Option Nat)) : Prop :=
  ∀ ⦃K σ μ⦄, σ.Sound Γ.statics Γ.slots K → Agree Γ.slots.length σ μ → ∀ ⦃code pc⦄ st,
    (boundLabels code).Nodup → CodeAt code pc block →
    w.Follows code (spared lo (argsLent args)) ⟨pc, st, μ⟩ (w.passAll params args σ) fun r d =>
      d.pc = pc + block.length ∧ w.Pushed Γ.slots.length code ⟨pc, st, μ⟩ st lo hi cells r.1 r.2 d

lemma pushes_nil (n : Nat) : w.Pushes Γ [] [] n n [] [] := by
  intro K σ μ _ hagree code pc st _ _
  rw [World.passAll]
  · exact .ok ⟨rfl, rfl, hagree, .nil⟩
  all_goals simp

/-- An argument and those after it. -/
lemma pushes_cons {p : Passing} {a : Arg} {params : List Passing} {args : List Arg}
    {first : Store → Eval (Passed × Store)} {lent : List Nat} {lo mid hi : Nat}
    {block block' : List Instr} {cell : Option Nat} {cells : List (Option Nat)}
    (hfirst : w.PushesOne Γ first lent lo mid block cell)
    (hsafe : ∀ ⦃K σ⦄, σ.Sound Γ.statics Γ.slots K →
      Safe (fun r => Lent Γ K p σ r.1 r.2) (first σ))
    (hrest : w.Pushes Γ params args mid hi block' cells)
    (hpass : ∀ σ, w.passAll (p :: params) (a :: args) σ = first σ >>= fun r =>
      w.passAll params args r.2 >>= fun q => .ok (r.1 :: q.1, q.2))
    (hlo : Γ.slots.length ≤ lo) (hmid : lo ≤ mid) (hhi : mid ≤ hi)
    (hlent : lent ++ argsLent args ⊆ argsLent (a :: args))
    (hargs : ∀ n ∈ argsLent args, n < Γ.slots.length) :
    w.Pushes Γ (p :: params) (a :: args) lo hi (block ++ block') (cell :: cells) := by
  intro K σ μ hσ hagree code pc st hn hcode
  rw [codeAt_append] at hcode
  rw [hpass]
  obtain ⟨hlent, hlent'⟩ := List.append_subset.mp hlent
  refine ((hfirst hσ hagree st hn hcode.1).mono (spared_mono le_rfl hlent)).bind
    fun (x, τ) ⟨pc', stack, ν⟩ hx hcd ⟨hpc, hpushed⟩ => ?_
  obtain rfl : pc' = pc + block.length := hpc
  obtain rfl : stack = x.operand :: st := hpushed.stack
  have hτ := ((hsafe hσ).of_ok hx).sound
  have hkeep : ∀ n, lo ≤ n → n < mid → n ∈ spared mid (argsLent args) := fun n hn =>
    mem_spared hargs (hlo.trans hn)
  have hfollows := (hrest hτ hpushed.agree _ hn hcode.2).imp fun r d _ hde ⟨hpc, hpushed'⟩ =>
    And.intro hpc (hpushed.cons hpushed' hcd hde hmid hhi hkeep)
  refine (hfollows.mono (spared_mono hmid hlent')).bind fun q d _ _ ⟨hpc, hpushed⟩ => ?_
  exact .ok ⟨by simp only [hpc, List.length_append, Nat.add_assoc], hpushed⟩

/-- The code stores back what the cells hold. -/
def StoresBack (w : World) (Γ : Variables) (params : List Passing) (args : List Arg) (lo hi : Nat)
    (block : List Instr) (cells : List (Option Nat)) : Prop :=
  ∀ ⦃K σ μ passed⦄, σ.Sound Γ.statics Γ.slots K → Agree Γ.slots.length σ μ →
    List.Forall₂ (InSlot μ lo hi) cells passed →
    List.Forall₂ (fun p x => Passed.Returns σ.heap p x) params passed → ∀ st,
    w.Runs (spared hi (argsLent args)) block ⟨st, μ⟩ (w.storeBack passed args σ) fun τ s' =>
      s'.stack = st ∧ Agree Γ.slots.length τ s'.store

/-- An argument for which there is nothing to store back. -/
lemma storesBack_skip {p : Passing} {a : Arg} {params : List Passing} {args : List Arg}
    {lo hi : Nat} {block : List Instr} {cell : Option Nat} {cells : List (Option Nat)}
    (h : w.StoresBack Γ params args lo hi block cells) (ha : cell = none ∨ ∃ e, a = .value e)
    (hlent : argsLent args ⊆ argsLent (a :: args)) :
    w.StoresBack Γ (p :: params) (a :: args) lo hi block (cell :: cells) := by
  intro K σ μ passed hσ hagree hslots hreturns st
  obtain _ | ⟨hcell, hslots⟩ := hslots
  obtain _ | ⟨hx, hreturns⟩ := hreturns
  rw [World.storeBack]
  · exact (h hσ hagree hslots hreturns st).mono (spared_mono le_rfl hlent)
  · rintro b v place t rfl rfl
    rcases ha with rfl | ⟨e, ha⟩
    · exact hcell
    · cases ha

/-- A cell is stored back, and then the others. -/
lemma storesBack_cell {p : Passing} {place : Place} {params : List Passing} {args : List Arg}
    {lo hi n : Nat} {codeA rest : List Instr} {cells : List (Option Nat)}
    (hw : w.Sound Γ.statics)
    (hargs : ArgsWellTyped Γ (p :: params) (.ref place place.ty :: args))
    (haddress : w.Leaves Γ hi place.lent codeA (w.position place) Location.operands)
    (hrest : w.StoresBack Γ params args lo hi rest cells) (hlo : Γ.slots.length ≤ lo) :
    w.StoresBack Γ (p :: params) (.ref place place.ty :: args) lo hi
      (Emit.outOfCell n place.ty place codeA ++ rest) (some n :: cells) := by
  intro K σ μ passed hσ hagree hslots hreturns st
  obtain _ | ⟨hcell, hslots⟩ := hslots
  obtain _ | ⟨hx, hreturns⟩ := hreturns
  rename_i x passed
  match x, hcell, hx with
  | .cell a v, ⟨hn, hn', hslot⟩, hx =>
    obtain ⟨-, hplace, -, hsame, -⟩ := id hargs
    have hkeep : ∀ m, lo ≤ m → m < hi →
        m ∈ spared hi (argsLent (.ref place place.ty :: args)) := fun m hm =>
      mem_spared (fun _ => argsLent_lt hargs) (hlo.trans hm)
    have hlent : place.lent ++ argsLent args ⊆ argsLent (.ref place place.ty :: args) :=
      List.subset_append_right _ _
    obtain ⟨hlent, hlent'⟩ := List.append_subset.mp hlent
    rw [World.storeBack]
    refine (outOfCell_runs hw hplace hsame (haddress.mono hlent) hσ hagree hx hslot
      (hkeep n hn hn') (List.subset_append_left _ _)).append fun τ s' hτ hν hout => ?_
    obtain ⟨stack, ν⟩ := s'
    obtain ⟨hstack, hagree⟩ := hout
    obtain rfl : st = stack := hstack.symm
    have hkeeps := (restore_safe (fun _ _ => position_safe hw place hplace) hσ hsame hx).of_ok hτ
    refine (hrest hkeeps.sound hagree ?_ ?_ st).mono (spared_mono le_rfl hlent')
    · exact hslots.imp fun _ _ hy => hy.keep fun m hm hm' => hν m (hkeep m hm hm')
    · exact hreturns.imp fun _ _ hy => hy.alike hkeeps.alike.heap

/-- The machine at the end of a call. -/
structure Finished (w : World) (n : Nat) (code : List Instr) (c : Config) (lo hi : Nat)
    (cells : List (Option Nat)) (passed : List Passed) (r : Option Value) (υ : Store) (e : Config) :
    Prop where
  stack : e.state.stack = r.toList ++ c.state.stack
  agree : Agree n υ e.state.store
  cells : List.Forall₂ (w.CellHeld code c e lo hi) cells passed

/-- The machine at the call instruction of a call that began in `c`. It calls the routine with the
arguments that were passed, and after the return stores the cells back. -/
structure AtCall (w : World) (n : Nat) (callee : Signature) (args : List Arg)
    (code : List Instr) (c : Config) (lo hi : Nat) (cells : List (Option Nat)) (stop : Nat)
    (passed : List Passed) (τ : Store) (d : Config) : Prop where
  pushed : w.Pushed n code c c.state.stack lo hi cells passed τ d
  calls : w.step code d =
    w.call (.ofSignature callee) (passed.map Passed.operand) τ.shared >>= fun r =>
      .ok ⟨d.pc + 1, r.1.toList ++ c.state.stack, d.state.store.resume r.2⟩
  returns {r : Option Value} {g : Shared}
    (h : w.call (.ofSignature callee) (passed.map Passed.operand) τ.shared = .ok (r, g)) :
    w.Follows code (spared hi (argsLent args))
      ⟨d.pc + 1, r.toList ++ c.state.stack, d.state.store.resume g⟩
      (w.storeBack passed args (τ.resume g)) fun υ e =>
        e.pc = stop ∧ w.Finished n code c lo hi cells passed r υ e

/-- The code of a call: the arguments are pushed, the routine is called, and the cells are stored
back. -/
lemma atCall_follows {callee : Signature} {args : List Arg} {push back code : List Instr}
    {cells : List (Option Nat)} {lo hi pc : Nat} {st : List Value} (hw : w.Sound Γ.statics)
    (hargs : ArgsWellTyped Γ callee.params args) (hlo : Γ.slots.length ≤ lo)
    (hpush : w.Pushes Γ callee.params args lo hi push cells)
    (hback : w.StoresBack Γ callee.params args lo hi back cells)
    (hσ : σ.Sound Γ.statics Γ.slots K) (hagree : Agree Γ.slots.length σ μ)
    (hn : (boundLabels code).Nodup)
    (hcode : CodeAt code pc (push ++ [Instr.invokeStatic (.ofSignature callee)] ++ back)) :
    w.Follows code (spared lo (argsLent args)) ⟨pc, st, μ⟩ (w.passAll callee.params args σ)
      fun r d => d.pc = pc + push.length ∧
        w.AtCall Γ.slots.length callee args code ⟨pc, st, μ⟩ lo hi cells
          (pc + push.length + 1 + back.length) r.1 r.2 d := by
  rw [codeAt_append, codeAt_append, codeAt_singleton] at hcode
  obtain ⟨⟨hpushAt, hcall⟩, hbackAt⟩ := hcode
  refine (hpush hσ hagree st hn hpushAt).imp
    fun (passed, τ) ⟨pc', stack, ν⟩ hpassed _ ⟨hpc, hpushed⟩ => ?_
  obtain rfl : pc' = pc + push.length := hpc
  obtain rfl : stack = (passed.map Passed.operand).reverse ++ st := hpushed.stack
  have hhanded := (passAll_safe hw hargs hσ).of_ok hpassed
  have hagreeν : Agree Γ.slots.length τ ν := hpushed.agree
  have hshared : ν.shared = τ.shared := by
    rw [Store.shared, Store.shared, hagreeν.statics, hagreeν.heap]
  have hlen : (passed.map Passed.operand).length =
      (MethodRef.ofSignature callee).params.length := by
    simp [MethodRef.ofSignature, hhanded.each.length_eq]
  have hstep : w.step code ⟨pc + push.length, (passed.map Passed.operand).reverse ++ st, ν⟩ = _ :=
    step_invokeStatic hcall hlen
  rw [hshared] at hstep
  refine ⟨rfl, hpushed, hstep, fun {r g} hr => ?_⟩
  rw [hr] at hstep
  have hleft := (hhanded.call_safe hw).of_ok hr
  have hresumed : Agree Γ.slots.length (τ.resume g) (ν.resume g) := ⟨rfl, hagreeν.slots, rfl⟩
  have hinSlot : List.Forall₂ (InSlot (ν.resume g) lo hi) cells passed :=
    hpushed.cells.imp fun _ _ hx => hx.inSlot.keep fun _ _ _ => rfl
  have hbackAt' : CodeAt code (pc + push.length + 1) back := by
    simpa [Nat.add_assoc] using hbackAt
  refine (hback hleft.keeps.sound hresumed hinSlot hleft.returns _ hn hbackAt').imp
    fun υ e _ hlead ⟨hpc, hstack, hagree⟩ => ⟨hpc, hstack, hagree, ?_⟩
  refine hpushed.cells.imp fun _ _ hx => hx.extend le_rfl le_rfl fun n a hn hn' hheld => ?_
  have hcalled : w.Leads code Set.univ _ _ := .single hstep fun _ _ => rfl
  exact (hheld.after hcalled (Set.mem_univ n)).after hlead
    (mem_spared (fun _ => argsLent_lt hargs) (hlo.trans hn) hn')

/-- A whole call leaves its result on the stack. -/
lemma call_leaves {callee : Signature} {args : List Arg} {push back : List Instr}
    {cells : List (Option Nat)} {lo hi : Nat} (hw : w.Sound Γ.statics)
    (hargs : ArgsWellTyped Γ callee.params args) (hlo : Γ.slots.length ≤ lo) (hhi : lo ≤ hi)
    (hpush : w.Pushes Γ callee.params args lo hi push cells)
    (hback : w.StoresBack Γ callee.params args lo hi back cells) :
    w.Leaves Γ lo (argsLent args) (push ++ [Instr.invokeStatic (.ofSignature callee)] ++ back)
      (w.perform callee args) Option.toList := by
  intro K σ μ hσ hagree st code pc hn hcode
  refine (atCall_follows hw hargs hlo hpush hback hσ hagree hn hcode).bind
    fun (passed, τ) d _ _ ⟨hpc, hcall⟩ => ?_
  have hfollows : w.Follows code (spared lo (argsLent args)) d
      (w.call (.ofSignature callee) (passed.map Passed.operand) τ.shared) fun r e =>
        e = ⟨d.pc + 1, r.1.toList ++ st, d.state.store.resume r.2⟩ := by
    have hstep := hcall.calls
    constructor
    · intro r hr
      rw [hr] at hstep
      exact ⟨_, .single hstep fun _ _ => rfl, rfl⟩
    · intro t ht
      rw [ht] at hstep
      exact ⟨d, .refl, hstep⟩
  refine hfollows.bind fun (r, g) e hr _ he => ?_
  subst he
  refine ((hcall.returns hr).mono (spared_mono hhi (List.Subset.refl _))).bind
    fun υ e _ _ ⟨hpc', hfinished⟩ => .ok ⟨?_, hfinished.stack, hfinished.agree⟩
  rw [hpc']
  simp only [List.length_append, List.length_singleton, Nat.add_assoc]

/-- The slots of the cells are free again after the call. -/
lemma invocation_ok {callee : Signature} {count : Nat} {s t : Emit.Supply} {code : List Instr}
    {push : Emit.Gen (List Instr × List (Option Nat))}
    {back : List (Option Nat) → Emit.Gen (List Instr)}
    (h : Emit.invocation callee count push back s = .ok (code, t)) :
    ∃ codePush cells codeBack u v, push s = .ok ((codePush, cells), u) ∧
      back cells u = .ok (codeBack, v) ∧ t.slot = s.slot ∧
      code = codePush ++ [Instr.invokeStatic (.ofSignature callee)] ++ codeBack := by
  unfold Emit.invocation at h
  split_ifs at h
  · simp only [Emit.Gen.bind_ok, Emit.Gen.throw_ok, false_and, exists_false] at h
  · simp only [Emit.Gen.bind_ok, Emit.Gen.pure_ok, Emit.Gen.releasing_ok] at h
    obtain ⟨-, ⟨⟨codePush, cells⟩, u, hpush, codeBack, v, hback, rfl, -⟩, -, hslot, -⟩ := h
    exact ⟨codePush, cells, codeBack, u, v, hpush, hback, hslot, rfl⟩

mutual

/-- The code of an expression leaves its value. -/
theorem expr_computes (hw : w.Sound Γ.statics) : (e : Expr) → (h : e.WellTyped Γ) →
    w.Computes Γ e.lent (Emit.expr e) (w.value e) ([·])
  | .int t i, _ => by
    rw [Emit.expr]
    exact push_computes rfl (by simp [Quiet]) (fun _ _ => rfl) fun σ => by rw [World.value]
  | .real t x, _ => by
    rw [Emit.expr]
    exact push_computes rfl (by simp [Quiet]) (fun _ _ => rfl) fun σ => by rw [World.value]
  | .text t s, _ => by
    rw [Emit.expr]
    exact push_computes rfl (by simp [Quiet]) (fun _ _ => rfl) fun σ => by rw [World.value]
  | .read t place placeTy, ⟨hplace, hty, _⟩ => by
    subst hty
    have hread : w.value (.read t place place.ty) = w.fetch place := funext fun σ => by
      rw [World.value]
      rfl
    rw [Emit.expr, hread]
    exact loadVia_computes hplace (path_computes hw place hplace)
  | .call t callee args, ⟨⟨r, hr, _⟩, hargs⟩ => by
    intro s code t hcode hs K σ μ hσ hagree st
    rw [Emit.expr] at hcode
    obtain ⟨push, cells, back, u, v, hpush, hback, -, rfl⟩ := invocation_ok hcode
    have hslot := (Emit.pushArgs_span _ _ hpush).slot_le
    rw [World.value]
    refine (call_leaves hw hargs hs hslot (pushArgs_pushes hw hargs hpush hs)
      (copyBack_storesBack hw hargs hback hs hslot) hσ hagree st).recast
      fun (x, τ) s' hx ⟨hstack, hagree⟩ => ?_
    have hresult := ((perform_safe hw hargs hσ).of_ok hx).2.1
    rw [hr] at hresult
    cases hresult with
    | some hty => exact ⟨_, rfl, hstack, hagree⟩
  | .unary t .neg x, ⟨hx, hnum, _⟩ => by
    rw [Emit.expr]
    exact unary_computes hw hx (expr_computes hw x hx) (by simp [Straight, Instr.straight])
      (by simp [Quiet]) fun _ _ _ _ hv => work_neg hv hnum
  | .unary t .not x, ⟨hx, hbool, _⟩ => by
    rw [Emit.expr]
    exact unary_computes hw hx (expr_computes hw x hx) (by simp [Straight, Instr.straight])
      (by simp [Quiet]) fun _ _ _ _ hv => work_not (hbool ▸ hv)
  | .binary ty op a b, ⟨ha, hb, r, hty, hr⟩ => by
    have hoperands := Check.operands_of_binaryTy hty
    rw [Emit.expr]
    cases hop : Emit.relation? op with
    | none =>
      exact arithmetic_computes hw ha hb hoperands hop hr (expr_computes hw a ha)
        (expr_computes hw b hb)
    | some rel =>
      exact relation_computes hw ha hb (hoperands.of_relation hop).1 hop (expr_computes hw a ha)
        (expr_computes hw b hb)

/-- The code that walks to a part of a variable leaves its value. -/
theorem path_computes (hw : w.Sound Γ.statics) : (p : Place) → (h : p.WellTyped Γ) →
    w.Computes Γ p.lent (Emit.path p) (w.fetch p) ([·])
  | .root s, h => by
    rw [Emit.path]
    exact loadObject_computes h
  | .field base record name t, h => by
    intro s code t' hcode hs
    simp only [Emit.path, Emit.Gen.bind_ok, Emit.Gen.pure_ok] at hcode
    obtain ⟨codeBase, u, hBase, rfl, rfl⟩ := hcode
    refine read_leaves hw h (field_computes hw h (path_computes hw base h.1) hBase hs) rfl
      (by simp [Quiet]) fun loc μ st hloc _ => ?_
    obtain ⟨a, rfl⟩ := hloc
    exact work_getField
  | .element base index low elem, h => by
    intro s code t' hcode hs
    simp only [Emit.path, Emit.Gen.bind_ok, Emit.Gen.pure_ok] at hcode
    obtain ⟨codeBase, u, hBase, codeIndex, v, hIndex, rfl, rfl⟩ := hcode
    have haddress : Emit.address (.element base index low elem) s =
        .ok (codeBase ++ codeIndex ++ Emit.rebase low, v) := by
      simp only [Emit.address, Emit.Gen.bind_ok, Emit.Gen.pure_ok]
      exact ⟨codeBase, u, hBase, codeIndex, v, hIndex, rfl, rfl⟩
    refine read_leaves hw h (element_computes hw h (path_computes hw base h.1)
      (expr_computes hw index h.2.1) haddress hs) rfl (by simp [Quiet])
      fun loc μ st hloc hholds => ?_
    obtain ⟨a, i, rfl⟩ := hloc
    exact work_arrayLoad hholds

/-- The code of an address leaves what stands for the location. -/
theorem address_computes (hw : w.Sound Γ.statics) : (p : Place) → (h : p.WellTyped Γ) →
    w.Computes Γ p.lent (Emit.address p) (w.position p) Location.operands
  | .root s, h => by
    rw [Emit.address]
    exact root_computes h
  | .field base record name t, h => by
    rw [Emit.address]
    exact field_computes hw h (path_computes hw base h.1)
  | .element base index low elem, h =>
    element_computes hw h (path_computes hw base h.1) (expr_computes hw index h.2.1)

/-- The arguments are pushed one after the other. -/
theorem pushArgs_pushes (hw : w.Sound Γ.statics) : {params : List Passing} → {args : List Arg} →
    (h : ArgsWellTyped Γ params args) → {s t : Emit.Supply} → {block : List Instr} →
    {cells : List (Option Nat)} →
    (hgen : Emit.pushArgs params args s = .ok ((block, cells), t)) →
    (hs : Γ.slots.length ≤ s.slot) → w.Pushes Γ params args s.slot t.slot block cells
  | [], [], _, s, t, block, cells, hgen, _ => by
    simp only [Emit.pushArgs, Emit.Gen.pure_ok, Prod.mk.injEq] at hgen
    obtain ⟨⟨rfl, rfl⟩, rfl⟩ := hgen
    exact pushes_nil _
  | p :: params, .value e :: args, ⟨hby, he, haccepts, hargs⟩, s, t, block, cells, hgen, hs => by
    simp only [Emit.pushArgs, Emit.Gen.bind_ok, Emit.Gen.pure_ok, Prod.mk.injEq] at hgen
    obtain ⟨codeE, u, hE, ⟨rest, cells'⟩, v, hrest, ⟨rfl, rfl⟩, rfl⟩ := hgen
    have hslot := (Emit.expr_spans e _ _ _ hE).2
    have hslot' := (Emit.pushArgs_span _ _ hrest).slot_le
    refine pushes_cons (give_pushes hw he haccepts (expr_computes hw e he) hE hs) ?_
      (pushArgs_pushes hw hargs hrest (hslot ▸ hs)) ?_ hs hslot.ge hslot' (List.Subset.refl _)
      fun n => argsLent_lt hargs
    · exact fun K σ hσ => give_safe hby haccepts (value_safe hw e he hσ)
    · intro σ
      rw [World.passAll]
      rfl
  | p :: params, .ref place t :: args, ⟨hby, hplace, hty, hsame, hargs⟩, s, t', block, cells,
      hgen, hs => by
    subst hty
    simp only [Emit.pushArgs, Emit.Gen.bind_ok, Emit.Gen.pure_ok, Prod.mk.injEq] at hgen
    obtain ⟨⟨codeE, cell⟩, u, hE, ⟨rest, cells'⟩, v, hrest, ⟨rfl, rfl⟩, rfl⟩ := hgen
    have hspans := Emit.loadVia_spans (Emit.path_spans place) place.ty place
    have hslot := (Emit.passRef_span hspans hE).slot_le
    have hslot' := (Emit.pushArgs_span _ _ hrest).slot_le
    refine pushes_cons (passRef_pushes hw hplace (loadVia_computes hplace
      (path_computes hw place hplace)) hspans hE hs) ?_
      (pushArgs_pushes hw hargs hrest (hs.trans hslot)) ?_ hs hslot hslot'
      (List.subset_append_right _ _) fun n => argsLent_lt hargs
    · exact fun K σ hσ =>
        lend_safe hw (fun _ _ => position_safe hw place hplace) hσ hplace hby hsame
    · intro σ
      rw [World.passAll]
      rfl

/-- The cells are stored back one after the other. -/
theorem copyBack_storesBack (hw : w.Sound Γ.statics) : {params : List Passing} → {args : List Arg} →
    (h : ArgsWellTyped Γ params args) → {s t : Emit.Supply} → {block : List Instr} →
    {cells : List (Option Nat)} → {lo : Nat} →
    (hgen : Emit.copyBack cells args s = .ok (block, t)) → (hlo : Γ.slots.length ≤ lo) →
    (hs : lo ≤ s.slot) → w.StoresBack Γ params args lo s.slot block cells
  | [], [], _, s, t, block, cells, lo, hgen, _, _ => by
    intro K σ μ passed _ hagree hslots hreturns st
    cases hreturns
    cases hslots
    simp only [Emit.copyBack, Emit.Gen.pure_ok] at hgen
    obtain ⟨rfl, rfl⟩ := hgen
    rw [World.storeBack]
    · exact .nil ⟨rfl, hagree⟩
    all_goals simp
  | p :: params, a :: args, _, s, t, block, [], lo, _, _, _ => by
    intro K σ μ passed _ _ hslots hreturns
    cases hreturns
    cases hslots
  | p :: params, .value e :: args, ⟨_, _, _, hargs⟩, s, t, block, cell :: cells, lo, hgen, hlo,
      hs => by
    rw [Emit.copyBack] at hgen
    · exact storesBack_skip (copyBack_storesBack hw hargs hgen hlo hs) (.inr ⟨e, rfl⟩)
        (List.subset_append_right _ _)
    all_goals simp
  | p :: params, .ref place t :: args, ⟨_, _, _, _, hargs⟩, s, t', block, none :: cells, lo, hgen,
      hlo, hs => by
    rw [Emit.copyBack] at hgen
    · exact storesBack_skip (copyBack_storesBack hw hargs hgen hlo hs) (.inl rfl) fun n hn =>
        List.mem_append_right _ (List.mem_append_right _ hn)
    all_goals simp
  | p :: params, .ref place t :: args, hall, s, t', block, some n :: cells, lo, hgen, hlo, hs => by
    obtain ⟨-, hplace, rfl, -, hargs⟩ := id hall
    simp only [Emit.copyBack, Emit.Gen.bind_ok, Emit.Gen.pure_ok] at hgen
    obtain ⟨codeA, u, hA, rest, v, hrest, rfl, rfl⟩ := hgen
    have hu := (Emit.address_spans place _ _ _ hA).2
    have hrest' := copyBack_storesBack hw hargs hrest hlo (hs.trans hu.ge)
    rw [hu] at hrest'
    exact storesBack_cell hw hall (address_computes hw place hplace hA (hlo.trans hs)) hrest' hlo

end

end World

end PascalJvm.Run
