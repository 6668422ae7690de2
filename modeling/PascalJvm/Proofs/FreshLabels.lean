import Mathlib.Tactic
import PascalJvm.Emit.Program
import PascalJvm.Proofs.Outcome
import PascalJvm.Proofs.StackDepth

/-!
# Labels of generated code

The code of a construct binds exactly the labels that it has drawn from the supply, each of
them once, and jumps only to these (`Span`). It needs no well-typed tree: whatever code comes
out has the property.
-/
namespace PascalJvm.Emit

open Jvm Typed

namespace Gen

variable {α β : Type} {s t : Supply}

theorem bind_ok {x : Gen α} {f : α → Gen β} {b : β} :
    (x >>= f) s = .ok (b, t) ↔ ∃ a u, x s = .ok (a, u) ∧ f a u = .ok (b, t) := by
  change (x s >>= fun r => f r.1 r.2) = .ok (b, t) ↔ _
  rw [bind_eq_ok, Prod.exists]

theorem pure_ok {a b : α} : (pure a : Gen α) s = .ok (b, t) ↔ a = b ∧ s = t := by
  change Except.ok (a, s) = .ok (b, t) ↔ _
  simp

theorem throw_ok {e : EmitError} {b : α} : (throw e : Gen α) s = .ok (b, t) ↔ False := by
  change Except.error e = .ok (b, t) ↔ _
  simp

theorem lift_ok {x : Except EmitError α} {b : α} :
    (liftM x : Gen α) s = .ok (b, t) ↔ x = .ok b ∧ s = t := by
  change (x >>= fun a => pure (a, s)) = .ok (b, t) ↔ _
  simp only [bind_eq_ok, pure_eq_ok, Prod.mk.injEq, ← and_assoc]
  grind

theorem freshLabel_ok {l : Nat} : freshLabel s = .ok (l, t) ↔
    l = s.label ∧ t.label = s.label + 1 ∧ t.slot = s.slot ∧ t.peak = s.peak := by
  obtain ⟨label, slot, peak⟩ := t
  simp [freshLabel, eq_comm]

theorem freshSlot_ok {n : Nat} : freshSlot s = .ok (n, t) ↔
    n = s.slot ∧ t.label = s.label ∧ t.slot = s.slot + 1 ∧ t.peak = max s.peak (s.slot + 1) := by
  obtain ⟨label, slot, peak⟩ := t
  simp [freshSlot, eq_comm]

theorem releasing_ok {x : Gen α} {a : α} : releasing x s = .ok (a, t) ↔
    ∃ u, x s = .ok (a, u) ∧ t.label = u.label ∧ t.slot = s.slot ∧ t.peak = u.peak := by
  obtain ⟨label, slot, peak⟩ := t
  unfold releasing
  split
  next b u hu => simp [hu, eq_comm]
  next e he => simp [he]

end Gen

/-- From `s` to `t` the labels of the code are drawn, and the supply only grows. -/
structure Span (s t : Supply) (code : List Instr) : Prop where
  label_le : s.label ≤ t.label
  slot_le : s.slot ≤ t.slot
  peak_le : s.peak ≤ t.peak
  bound (l : Nat) : (boundLabels code).count l = if s.label ≤ l ∧ l < t.label then 1 else 0
  jumps {l : Nat} (hl : l ∈ jumpedLabels code) : s.label ≤ l ∧ l < t.label

namespace Span

variable {s t u : Supply} {code code' : List Instr}

lemma nodup (h : Span s t code) : (boundLabels code).Nodup := by
  rw [List.nodup_iff_count_le_one]
  intro l
  rw [h.bound]
  split_ifs <;> omega

/-- Code without labels. -/
lemma unlabelled (hb : boundLabels code = []) (hj : jumpedLabels code = []) : Span s s code where
  label_le := le_refl _
  slot_le := le_refl _
  peak_le := le_refl _
  bound l := by
    rw [hb, List.count_nil, if_neg]
    omega
  jumps hl := by simp [hj] at hl

lemma straight (h : Straight code) : Span s s code :=
  unlabelled (boundLabels_of_straight h) (jumpedLabels_of_straight h)

lemma append (h : Span s t code) (h' : Span t u code') : Span s u (code ++ code') where
  label_le := h.label_le.trans h'.label_le
  slot_le := h.slot_le.trans h'.slot_le
  peak_le := h.peak_le.trans h'.peak_le
  bound l := by
    have hle := h.label_le
    have hle' := h'.label_le
    rw [boundLabels_append, List.count_append, h.bound, h'.bound]
    split_ifs <;> omega
  jumps hl := by
    have hle := h.label_le
    have hle' := h'.label_le
    rw [jumpedLabels_append, List.mem_append] at hl
    rcases hl with hl | hl
    · have := h.jumps hl
      omega
    · have := h'.jumps hl
      omega

/-- Straight code after a piece of code. -/
lemma snoc (h : Span s t code) (hs : Straight code') : Span s t (code ++ code') :=
  h.append (.straight hs)

/-- Slots that the code has taken are returned after it. -/
lemma release (h : Span s u code) (hl : t.label = u.label) (hs : t.slot = s.slot)
    (hp : t.peak = u.peak) : Span s t code :=
  ⟨hl ▸ h.label_le, hs.ge, hp ▸ h.peak_le, hl ▸ h.bound, hl ▸ h.jumps⟩

/-- A construct with labels of its own around the code of its parts. -/
lemma enclose (own : List Label) (h : Span u t code) (hown : own = List.range' s.label own.length)
    (hlabel : u.label = s.label + own.length) (hslot : s.slot ≤ t.slot) (hpeak : s.peak ≤ t.peak)
    (hbound : ∀ l, (boundLabels code').count l = own.count l + (boundLabels code).count l)
    (hjumps : ∀ l ∈ jumpedLabels code', l ∈ own ∨ l ∈ jumpedLabels code) : Span s t code' where
  label_le := by have := h.label_le; omega
  slot_le := hslot
  peak_le := hpeak
  bound l := by
    have hle := h.label_le
    rw [hbound, h.bound, hown, (List.nodup_range').count]
    simp only [List.mem_range'_1]
    split_ifs <;> omega
  jumps {l} hl := by
    have hle := h.label_le
    rcases hjumps l hl with hl | hl
    · rw [hown, List.mem_range'_1] at hl
      omega
    · have := h.jumps hl
      omega

/-- Most constructs have two labels of their own. -/
lemma enclose_two {own own' : Nat} (h : Span u t code) (hown : own = s.label)
    (hown' : own' = s.label + 1) (hlabel : u.label = s.label + 2) (hslot : s.slot ≤ t.slot)
    (hpeak : s.peak ≤ u.peak)
    (hbound : ∀ l, (boundLabels code').count l = [own, own'].count l + (boundLabels code).count l)
    (hjumps : ∀ l ∈ jumpedLabels code', l = own ∨ l = own' ∨ l ∈ jumpedLabels code) :
    Span s t code' := by
  refine h.enclose [own, own'] (by simp [List.range', hown, hown']) hlabel hslot
    (hpeak.trans h.peak_le) hbound fun l hl => ?_
  simpa [or_assoc] using hjumps l hl

end Span

section

variable {s t : Supply}

@[simp] theorem straight_widen (a b : Ty) : Straight (widen a b) := by
  unfold widen
  split <;> simp [Straight, Instr.straight]

@[simp] theorem straight_widenTo (k : Kind) (b : Ty) : Straight (widenTo k b) := by
  unfold widenTo
  split <;> simp [Straight, Instr.straight]

@[simp] theorem straight_rebase (low : Int32) : Straight (rebase low) := by
  unfold rebase
  split <;> simp [Straight, Instr.straight]

@[simp] theorem straight_loadSymbol (v : Symbol) (ty : Ty) : Straight (loadSymbol v ty) := by
  unfold loadSymbol
  split <;> simp [Straight, Instr.straight]

@[simp] theorem straight_symbolAddress (v : Symbol) : Straight (symbolAddress v) := by
  unfold symbolAddress
  split <;> simp [Straight, Instr.straight]

@[simp] theorem straight_store (ty : Ty) (p : Place) : Straight (store ty p) := by
  cases p with
  | root v =>
    obtain ⟨name, storage, vty⟩ := v
    cases storage <;> simp [store, Straight, Instr.straight]
  | field => simp [store, Straight, Instr.straight]
  | element => simp [store, Straight, Instr.straight]

@[simp] theorem boundLabels_compare (r : Relation) (a b : Ty) (yes : Label) :
    boundLabels (compare r a b yes) = [] := by
  unfold compare
  split_ifs <;> rfl

@[simp] theorem jumpedLabels_compare (r : Relation) (a b : Ty) (yes : Label) :
    jumpedLabels (compare r a b yes) = [yes] := by
  unfold compare
  split_ifs <;> rfl

/-- Code that generates code for a value: it binds its own labels, and it returns every slot. -/
def Spans (x : Gen (List Instr)) : Prop :=
  ∀ s code t, x s = .ok (code, t) → Span s t code ∧ t.slot = s.slot

lemma spans_nil : Spans (return []) := by
  intro s code t h
  simp only [Gen.pure_ok] at h
  obtain ⟨rfl, rfl⟩ := h
  exact ⟨.straight (by simp [Straight]), rfl⟩

lemma loadObject_spans (v : Symbol) : Spans (loadObject v) := by
  intro s code t h
  obtain ⟨name, storage, ty⟩ := v
  cases storage with
  | static | slot =>
    obtain ⟨rfl, rfl⟩ := Gen.pure_ok.mp h
    exact ⟨.straight (by simp [Straight, Instr.straight]), rfl⟩
  | cell => exact (Gen.throw_ok.mp h).elim

lemma loadVia_spans {walk : Gen (List Instr)} (hw : Spans walk) (ty : Ty) (p : Place) :
    Spans (loadVia walk ty p) := by
  cases p with
  | root v =>
    intro s code t h
    obtain ⟨rfl, rfl⟩ := Gen.pure_ok.mp h
    exact ⟨.straight (straight_loadSymbol _ _), rfl⟩
  | field => exact hw
  | element => exact hw

lemma arithmetic_spans {a b : Gen (List Instr)} (ha : Spans a) (hb : Spans b) (op : BinOp)
    (ty tyA tyB : Ty) : Spans (arithmetic op ty tyA tyB a b) := by
  intro s code t h
  simp only [arithmetic, Gen.bind_ok, Gen.pure_ok] at h
  obtain ⟨codeA, u, hA, codeB, v, hB, rfl, rfl⟩ := h
  obtain ⟨hspanA, hslotA⟩ := ha _ _ _ hA
  obtain ⟨hspanB, hslotB⟩ := hb _ _ _ hB
  refine ⟨?_, hslotB.trans hslotA⟩
  exact ((((hspanA.snoc (straight_widenTo _ _)).append hspanB).snoc (straight_widenTo _ _)).snoc
    (by simp [Straight, Instr.straight]))

lemma relation_spans {a b : Gen (List Instr)} (ha : Spans a) (hb : Spans b) (r : Relation)
    (tyA tyB : Ty) : Spans (relation r tyA tyB a b) := by
  intro s code t h
  simp only [relation, Gen.bind_ok, Gen.pure_ok, Gen.freshLabel_ok] at h
  obtain ⟨yes, s₁, ⟨rfl, hl₁, hs₁, hp₁⟩, done, s₂, ⟨rfl, hl₂, hs₂, hp₂⟩, codeA, u, hA, codeB, v, hB,
    rfl, rfl⟩ := h
  obtain ⟨hspanA, hslotA⟩ := ha _ _ _ hA
  obtain ⟨hspanB, hslotB⟩ := hb _ _ _ hB
  refine ⟨(hspanA.append hspanB).enclose_two rfl hl₁ (by omega) (by omega) (by omega) ?_ ?_,
    by omega⟩
  · intro l
    simp [Instr.bound?, List.count_cons]
    omega
  · intro l hl
    simp [Instr.targets] at hl ⊢
    tauto

/-- A cell takes one slot, which is kept until the call is done. -/
lemma intoCell_span {load : Gen (List Instr)} (hload : Spans load) {ty : Ty} {code : List Instr}
    {cell : Nat} (h : intoCell ty load s = .ok ((code, cell), t)) :
    Span s t code ∧ t.slot = s.slot + 1 := by
  simp only [intoCell, Gen.bind_ok, Gen.pure_ok, Gen.freshSlot_ok, Prod.mk.injEq] at h
  obtain ⟨c, u, ⟨rfl, hl, hs, hp⟩, code', v, hcode, ⟨rfl, rfl⟩, rfl⟩ := h
  obtain ⟨hspan, hslot⟩ := hload _ _ _ hcode
  have hpeak := hspan.peak_le
  refine ⟨hspan.enclose [] rfl (by simp [hl]) (by omega) (by omega) ?_ ?_, by omega⟩
  · intro l
    simp [Instr.bound?]
  · intro l hl
    simpa [Instr.targets] using hl

lemma passRef_span {load : Gen (List Instr)} (hload : Spans load) {ty : Ty} {place : Place}
    {code : List Instr} {cell : Option Nat}
    (h : passRef ty place load s = .ok ((code, cell), t)) : Span s t code := by
  unfold passRef at h
  split_ifs at h
  · simp only [Gen.bind_ok, Gen.pure_ok, Prod.mk.injEq] at h
    obtain ⟨code', u, hcode, ⟨rfl, -⟩, rfl⟩ := h
    exact (hload _ _ _ hcode).1
  · cases hown : ownCell? place with
    | some n =>
      simp only [hown, Gen.pure_ok, Prod.mk.injEq] at h
      obtain ⟨⟨rfl, -⟩, rfl⟩ := h
      exact .straight (by simp [Straight, Instr.straight])
    | none =>
      simp only [hown, Gen.bind_ok, Gen.pure_ok, Prod.mk.injEq] at h
      obtain ⟨⟨code', c⟩, u, hcode, ⟨rfl, -⟩, rfl⟩ := h
      exact (intoCell_span hload hcode).1

lemma invocation_spans {callee : Signature} {count : Nat}
    {push : Gen (List Instr × List (Option Nat))} {copyBack : List (Option Nat) → Gen (List Instr)}
    (hpush : ∀ s code cells t, push s = .ok ((code, cells), t) → Span s t code)
    (hback : ∀ cells, Spans (copyBack cells)) : Spans (invocation callee count push copyBack) := by
  intro s code t h
  unfold invocation at h
  split_ifs at h
  · simp only [Gen.bind_ok, Gen.throw_ok, false_and, exists_false] at h
  · simp only [Gen.bind_ok, Gen.pure_ok, Gen.releasing_ok] at h
    obtain ⟨u, ⟨⟨args, cells⟩, v, hargs, back, w, hcode, rfl, rfl⟩, hl, hs, hp⟩ := h
    have hspan := hpush _ _ _ _ hargs
    obtain ⟨hspan', hslot'⟩ := hback _ _ _ _ hcode
    have hcall : Straight [.invokeStatic (MethodRef.ofSignature callee)] := by
      simp [Straight, Instr.straight]
    exact ⟨((hspan.snoc hcall).append hspan').release hl hs hp, hs⟩

lemma outOfCell_span {cell : Nat} {ty : Ty} {place : Place} {address : List Instr} {u : Supply}
    (h : Span s u address) : Span s u (outOfCell cell ty place address) :=
  (h.snoc (by simp [Straight, Instr.straight])).snoc (straight_store _ _)

mutual

theorem expr_spans (e : Expr) : Spans (expr e) := by
  match e with
  | .int _ _ | .real _ _ | .text _ _ =>
    intro s code t h
    simp only [expr, Gen.pure_ok] at h
    obtain ⟨rfl, rfl⟩ := h
    exact ⟨.straight (by simp [Straight, Instr.straight]), rfl⟩
  | .read _ place placeTy =>
    rw [expr]
    exact loadVia_spans (path_spans place) placeTy place
  | .call _ callee args =>
    rw [expr]
    exact invocation_spans (fun _ _ _ _ h => pushArgs_span callee.params args h)
      fun cells => copyBack_spans cells args
  | .unary _ op x =>
    intro s code t h
    cases op with
    | neg | not =>
      simp only [expr, Gen.bind_ok, Gen.pure_ok] at h
      obtain ⟨codeX, u, hX, rfl, rfl⟩ := h
      obtain ⟨hspan, hslot⟩ := expr_spans x _ _ _ hX
      exact ⟨hspan.snoc (by simp [Straight, Instr.straight]), hslot⟩
  | .binary ty op a b =>
    rw [expr]
    split
    · exact relation_spans (expr_spans a) (expr_spans b) _ _ _
    · exact arithmetic_spans (expr_spans a) (expr_spans b) _ _ _ _

theorem path_spans (p : Place) : Spans (path p) := by
  match p with
  | .root v =>
    rw [path]
    exact loadObject_spans v
  | .field base record name ty =>
    intro s code t h
    simp only [path, Gen.bind_ok, Gen.pure_ok] at h
    obtain ⟨codeBase, u, hBase, rfl, rfl⟩ := h
    obtain ⟨hspan, hslot⟩ := path_spans base _ _ _ hBase
    exact ⟨hspan.snoc (by simp [Straight, Instr.straight]), hslot⟩
  | .element base index low elem =>
    intro s code t h
    simp only [path, Gen.bind_ok, Gen.pure_ok] at h
    obtain ⟨codeBase, u, hBase, codeIndex, v, hIndex, rfl, rfl⟩ := h
    obtain ⟨hspan, hslot⟩ := path_spans base _ _ _ hBase
    obtain ⟨hspan', hslot'⟩ := expr_spans index _ _ _ hIndex
    exact ⟨((hspan.append hspan').snoc (straight_rebase _)).snoc (by simp [Straight, Instr.straight]),
      hslot'.trans hslot⟩

theorem address_spans (p : Place) : Spans (address p) := by
  match p with
  | .root v =>
    intro s code t h
    simp only [address, Gen.pure_ok] at h
    obtain ⟨rfl, rfl⟩ := h
    exact ⟨.straight (straight_symbolAddress v), rfl⟩
  | .field base _ _ _ =>
    rw [address]
    exact path_spans base
  | .element base index low _ =>
    intro s code t h
    simp only [address, Gen.bind_ok, Gen.pure_ok] at h
    obtain ⟨codeBase, u, hBase, codeIndex, v, hIndex, rfl, rfl⟩ := h
    obtain ⟨hspan, hslot⟩ := path_spans base _ _ _ hBase
    obtain ⟨hspan', hslot'⟩ := expr_spans index _ _ _ hIndex
    exact ⟨(hspan.append hspan').snoc (straight_rebase _), hslot'.trans hslot⟩

theorem pushArgs_span (params : List Passing) (args : List Arg) {s t : Supply} {code : List Instr}
    {cells : List (Option Nat)} (h : pushArgs params args s = .ok ((code, cells), t)) :
    Span s t code := by
  match params, args with
  | p :: params, .value e :: args =>
    simp only [pushArgs, Gen.bind_ok, Gen.pure_ok, Prod.mk.injEq] at h
    obtain ⟨codeE, u, hE, ⟨rest, cells'⟩, v, hrest, ⟨rfl, -⟩, rfl⟩ := h
    exact ((expr_spans e _ _ _ hE).1.snoc (straight_widen _ _)).append
      (pushArgs_span params args hrest)
  | p :: params, .ref place placeTy :: args =>
    simp only [pushArgs, Gen.bind_ok, Gen.pure_ok, Prod.mk.injEq] at h
    obtain ⟨⟨codeE, cell⟩, u, hE, ⟨rest, cells'⟩, v, hrest, ⟨rfl, -⟩, rfl⟩ := h
    exact (passRef_span (loadVia_spans (path_spans place) placeTy place) hE).append
      (pushArgs_span params args hrest)
  | [], _ | _ :: _, [] =>
    simp only [pushArgs, Gen.pure_ok, Prod.mk.injEq] at h
    obtain ⟨⟨rfl, -⟩, rfl⟩ := h
    exact .straight (by simp [Straight])

theorem copyBack_spans (cells : List (Option Nat)) (args : List Arg) :
    Spans (copyBack cells args) := by
  match cells, args with
  | some cell :: cells, .ref place placeTy :: args =>
    intro s code t h
    simp only [copyBack, Gen.bind_ok, Gen.pure_ok] at h
    obtain ⟨codeA, u, hA, rest, v, hrest, rfl, rfl⟩ := h
    obtain ⟨hspan, hslot⟩ := address_spans place _ _ _ hA
    obtain ⟨hspan', hslot'⟩ := copyBack_spans cells args _ _ _ hrest
    exact ⟨(outOfCell_span hspan).append hspan', hslot'.trans hslot⟩
  | none :: cells, _ :: args =>
    rw [copyBack]
    · exact copyBack_spans cells args
    all_goals simp
  | some _ :: cells, .value _ :: args =>
    rw [copyBack]
    · exact copyBack_spans cells args
    all_goals simp
  | [], _ | _ :: _, [] =>
    intro s code t h
    simp only [copyBack, Gen.pure_ok] at h
    obtain ⟨rfl, rfl⟩ := h
    exact ⟨.straight (by simp [Straight]), rfl⟩

end

lemma load_spans (d : Designator) : Spans (load d) := loadVia_spans (path_spans d.place) d.ty d.place

lemma call_spans (callee : Signature) (args : List Arg) : Spans (call callee args) :=
  invocation_spans (fun _ _ _ _ h => pushArgs_span callee.params args h)
    fun cells => copyBack_spans cells args

lemma assign_spans (target : Designator) (value : Expr) : Spans (assign target value) := by
  intro s code t h
  simp only [assign, Gen.bind_ok, Gen.pure_ok] at h
  obtain ⟨codeA, u, hA, codeV, v, hV, rfl, rfl⟩ := h
  obtain ⟨hspan, hslot⟩ := address_spans target.place _ _ _ hA
  obtain ⟨hspan', hslot'⟩ := expr_spans value _ _ _ hV
  exact ⟨((hspan.append hspan').snoc (straight_widen _ _)).snoc (straight_store _ _),
    hslot'.trans hslot⟩

lemma stepCounter_spans (counter : Designator) (down : Bool) : Spans (stepCounter counter down) := by
  intro s code t h
  simp only [stepCounter, Gen.bind_ok, Gen.pure_ok] at h
  obtain ⟨codeA, u, hA, codeL, v, hL, rfl, rfl⟩ := h
  obtain ⟨hspan, hslot⟩ := address_spans counter.place _ _ _ hA
  obtain ⟨hspan', hslot'⟩ := load_spans counter _ _ _ hL
  exact ⟨((hspan.append hspan').snoc (by simp [Straight, Instr.straight])).snoc (straight_store _ _),
    hslot'.trans hslot⟩

@[simp] theorem straight_readValue (d : Designator) : Straight (readValue d) :=
  .append (by simp [Straight, Instr.straight]) (straight_store _ _)

@[simp] theorem straight_readChar (d : Designator) : Straight (readChar d) :=
  .append (.append (by simp [Straight, Instr.straight]) (straight_store _ _))
    (by simp [Straight, Instr.straight])

@[simp] theorem straight_wrap (t : Ty) : Straight (wrap t) := by
  unfold wrap
  split <;> simp [Straight, Instr.straight]

lemma readTarget_spans (d : Designator) : Spans (readTarget d) := by
  intro s code t h
  simp only [readTarget, Gen.bind_ok, Gen.pure_ok] at h
  obtain ⟨codeA, u, hA, rfl, rfl⟩ := h
  obtain ⟨hspan, hslot⟩ := address_spans d.place _ _ _ hA
  refine ⟨hspan.snoc ?_, hslot⟩
  split
  · exact straight_readChar d
  · exact straight_readValue d

lemma readTargets_spans (ds : List Designator) : Spans (readTargets ds) := by
  induction ds with
  | nil => exact spans_nil
  | cons d ds ih =>
    intro s code t h
    simp only [readTargets, Gen.bind_ok, Gen.pure_ok] at h
    obtain ⟨code', u, hD, rest, v, hrest, rfl, rfl⟩ := h
    obtain ⟨hspan, hslot⟩ := readTarget_spans d _ _ _ hD
    obtain ⟨hspan', hslot'⟩ := ih _ _ _ hrest
    exact ⟨hspan.append hspan', hslot'.trans hslot⟩

lemma read_spans (line : Bool) (ds : List Designator) : Spans (read line ds) := by
  intro s code t h
  simp only [read, Gen.bind_ok, Gen.pure_ok] at h
  obtain ⟨code', u, hD, rfl, rfl⟩ := h
  obtain ⟨hspan, hslot⟩ := readTargets_spans ds _ _ _ hD
  refine ⟨hspan.snoc ?_, hslot⟩
  split <;> simp [Straight, Instr.straight, skipLine]

lemma fillObjects_spans (es : List Expr) (n : Nat) : Spans (fillObjects n es) := by
  induction es generalizing n with
  | nil => exact spans_nil
  | cons e es ih =>
    intro s code t h
    simp only [fillObjects, Gen.bind_ok, Gen.pure_ok] at h
    obtain ⟨codeE, u, hE, rest, v, hrest, rfl, rfl⟩ := h
    obtain ⟨hspan, hslot⟩ := expr_spans e _ _ _ hE
    obtain ⟨hspan', hslot'⟩ := ih _ _ _ _ hrest
    have hstart : Span s s [.dup, .pushInt (Int32.ofNat n)] :=
      .straight (by simp [Straight, Instr.straight])
    exact ⟨((((hstart.append hspan).snoc (straight_wrap _)).snoc
      (by simp [Straight, Instr.straight])).append hspan'), hslot'.trans hslot⟩

lemma write_spans (line : Bool) (args : List WriteArg) : Spans (write line args) := by
  intro s code t h
  unfold write at h
  split_ifs at h
  · simp only [Gen.pure_ok] at h
    obtain ⟨rfl, rfl⟩ := h
    exact ⟨.straight (by simp [Straight, Instr.straight]), rfl⟩
  · simp only [Gen.pure_ok] at h
    obtain ⟨rfl, rfl⟩ := h
    exact ⟨.straight (by simp [Straight]), rfl⟩
  · rcases hvalues : writtenValues args with _ | ⟨e, es⟩ <;>
      simp only [hvalues, Gen.bind_ok, Gen.pure_ok] at h
    · obtain ⟨rfl, rfl⟩ := h
      exact ⟨.straight (by simp [Straight, Instr.straight]), rfl⟩
    · obtain ⟨code', u, hcode, rfl, rfl⟩ := h
      obtain ⟨hspan, hslot⟩ := fillObjects_spans _ _ _ _ _ hcode
      refine ⟨?_, hslot⟩
      refine Span.snoc (Span.append (.straight ?_) hspan) ?_ <;> simp [Straight, Instr.straight]

lemma fillArray_spans {elem : Gen (List Instr)} (helem : Spans elem) (len : Nat) :
    Spans (fillArray len elem) := by
  intro s code t h
  simp only [fillArray, Gen.releasing_ok, Gen.bind_ok, Gen.pure_ok, Gen.freshSlot_ok,
    Gen.freshLabel_ok] at h
  obtain ⟨u, ⟨array, s₁, ⟨rfl, hl₁, hs₁, hp₁⟩, index, s₂, ⟨rfl, hl₂, hs₂, hp₂⟩, top, s₃,
    ⟨rfl, hl₃, hs₃, hp₃⟩, exit, s₄, ⟨rfl, hl₄, hs₄, hp₄⟩, code', v, hcode, rfl, rfl⟩, hl, hs, hp⟩ := h
  obtain ⟨hspan, hslot⟩ := helem _ _ _ hcode
  have hexit : s₃.label = s.label + 1 := by omega
  refine ⟨Span.release (hspan.enclose_two (hl₂.trans hl₁) hexit ?_ ?_ ?_ (fun l => ?_)
    fun l hl => ?_) hl hs hp, hs⟩
  · omega
  · omega
  · omega
  · simp [Instr.bound?, List.count_cons]
    omega
  · simp [Instr.targets] at hl ⊢
    tauto

lemma initial_spans (ty : Ty) : Spans (initial ty) := by
  intro s code t h
  induction ty using initial.induct generalizing s code t with
  | case6 low len elem href ih =>
    simp only [initial, href, if_true, Gen.bind_ok, Gen.pure_ok] at h
    obtain ⟨code', u, hcode, rfl, rfl⟩ := h
    obtain ⟨hspan, hslot⟩ := fillArray_spans ih len _ _ _ hcode
    exact ⟨Span.append (.straight (by simp [Straight, Instr.straight])) hspan, hslot⟩
  | case7 low len elem href =>
    simp only [initial, href, if_false, Gen.pure_ok] at h
    obtain ⟨rfl, rfl⟩ := h
    exact ⟨.straight (by simp [Straight, Instr.straight]), rfl⟩
  | _ =>
    simp only [initial, Gen.pure_ok] at h
    obtain ⟨rfl, rfl⟩ := h
    exact ⟨.straight (by simp [Straight, Instr.straight]), rfl⟩

end

/-- Operations that come from code and from entering statements. -/
def Written (ops : List Op) : Prop := ∀ op ∈ ops, op.builds = true ∧ op.makesLabel = false

@[simp] theorem written_nil : Written [] := by simp [Written]

@[simp] theorem written_asm (code : List Instr) : Written (asm code) := by
  simp [Written, asm, Op.builds, Op.makesLabel]

@[simp] theorem written_append (xs ys : List Op) :
    Written (xs ++ ys) ↔ Written xs ∧ Written ys := by
  exact List.forall_mem_append

@[simp] theorem written_enter (kind : String) (ops : List Op) :
    Written (.enter kind :: ops) ↔ Written ops := by
  simp [Written, Op.builds, Op.makesLabel]

@[simp] theorem emitted_asm (code : List Instr) : emitted (asm code) = code := by
  induction code with
  | nil => rfl
  | cons ins code ih => simp only [asm, List.map_cons, emitted_cons_emit] at ih ⊢; rw [ih]

theorem entering_ok {kind : String} {x : Gen (List Op)} {s t : Supply} {ops : List Op} :
    entering kind x s = .ok (ops, t) ↔ ∃ ops', x s = .ok (ops', t) ∧ ops = .enter kind :: ops' := by
  simp only [entering, Gen.bind_ok, Gen.pure_ok]
  grind

lemma CaseTable.mem_put {value : Int32} {l m : Label} {table : CaseTable}
    (h : m ∈ (put value l table).map Prod.snd) : m = l ∨ m ∈ table.map Prod.snd := by
  induction table with
  | nil => simpa [put] using h
  | cons entry rest ih =>
    obtain ⟨v, k⟩ := entry
    unfold put at h
    split_ifs at h <;> simp only [List.map_cons, List.mem_cons] at h ⊢ <;> tauto

lemma CaseTable.mem_addBranch {policy : CasePolicy} {l m : Label} {values : List Int32}
    {table table' : CaseTable} (h : addBranch policy l table values = .ok table')
    (hm : m ∈ table'.map Prod.snd) : m = l ∨ m ∈ table.map Prod.snd := by
  induction values generalizing table with
  | nil => cases h; exact .inr hm
  | cons v rest ih =>
    simp only [addBranch] at h
    split_ifs at h
    rcases ih h with rfl | hmem
    · exact .inl rfl
    · exact mem_put hmem

theorem caseTable_cons_ok {policy : CasePolicy} {table table' : CaseTable} {vs : List Int32}
    {rest : List (List Int32)} {labels : List Label} {s t : Supply} :
    caseTable policy table (vs :: rest) s = .ok ((labels, table'), t) ↔ vs ≠ [] ∧
      ∃ branch labels', table.addBranch policy s.label vs = .ok branch ∧
        caseTable policy branch rest { s with label := s.label + 1 } = .ok ((labels', table'), t) ∧
        labels = s.label :: labels' := by
  rw [caseTable]
  split_ifs with hvs
  · simp_all [Gen.bind_ok, Gen.throw_ok]
  · simp only [Gen.bind_ok, freshLabel, Gen.lift_ok, Gen.pure_ok, Except.ok.injEq, Prod.mk.injEq]
    grind

/-- A case statement draws one label for each branch, and its table knows only these. -/
lemma caseTable_ok {policy : CasePolicy} {table table' : CaseTable} {values : List (List Int32)}
    {labels : List Label} {s t : Supply}
    (h : caseTable policy table values s = .ok ((labels, table'), t)) :
    labels = List.range' s.label values.length ∧ t.label = s.label + values.length ∧
      t.slot = s.slot ∧ t.peak = s.peak ∧
      ∀ l ∈ table'.map Prod.snd, l ∈ labels ∨ l ∈ table.map Prod.snd := by
  induction values generalizing table labels s with
  | nil =>
    simp only [caseTable, Gen.pure_ok, Prod.mk.injEq] at h
    obtain ⟨⟨rfl, rfl⟩, rfl⟩ := h
    simp
  | cons vs rest ih =>
    obtain ⟨-, branch, labels', hbranch, hrest, rfl⟩ := caseTable_cons_ok.mp h
    obtain ⟨rfl, hl, hs, hp, hmem⟩ := ih hrest
    refine ⟨by simp [List.range'], by simp [hl]; omega, hs, hp, fun m hm => ?_⟩
    rcases hmem m hm with hm | hm
    · simp [hm]
    · rcases CaseTable.mem_addBranch hbranch hm with rfl | hm
      · simp
      · exact .inr hm

/-- The code of a statement or of a part of one: it binds its own labels and returns every
slot. -/
def OpsSpan (x : Gen (List Op)) : Prop :=
  ∀ s ops t, x s = .ok (ops, t) → Span s t (emitted ops) ∧ t.slot = s.slot ∧ Written ops

lemma OpsSpan.entering {kind : String} {x : Gen (List Op)} (hx : OpsSpan x) :
    OpsSpan (entering kind x) := by
  intro s ops t h
  obtain ⟨ops', h', rfl⟩ := entering_ok.mp h
  simpa using hx _ _ _ h'

lemma Spans.asm {x : Gen (List Instr)} (hx : Spans x) :
    OpsSpan (do return asm (← x)) := by
  intro s ops t h
  simp only [Gen.bind_ok, Gen.pure_ok] at h
  obtain ⟨code, u, hcode, rfl, rfl⟩ := h
  simpa using hx _ _ _ hcode

lemma defaultLabel_ok {done l : Label} {hasDefault : Bool} {s t : Supply} :
    defaultLabel done hasDefault s = .ok (l, t) ↔
      l = (if hasDefault then s.label else done) ∧ t.slot = s.slot ∧ t.peak = s.peak ∧
        t.label = s.label + hasDefault.toNat := by
  obtain ⟨label, slot, peak⟩ := s
  obtain ⟨label', slot', peak'⟩ := t
  cases hasDefault <;> simp [defaultLabel, Gen.freshLabel_ok, Gen.pure_ok] <;> grind

lemma opsSpan_nil : OpsSpan (return []) := by
  intro s ops t h
  simp only [Gen.pure_ok] at h
  obtain ⟨rfl, rfl⟩ := h
  exact ⟨.straight (by simp [Straight]), rfl, by simp⟩

/-- Most statements draw two labels first. They bind each of them once around the code of their
parts, and their own jumps go to these two. -/
lemma OpsSpan.twoLabels {body : Label → Label → Gen (List Op)}
    (h : ∀ a b s ops t, body a b s = .ok (ops, t) → ∃ code, Span s t code ∧
      (∀ l, (boundLabels (emitted ops)).count l = [a, b].count l + (boundLabels code).count l) ∧
      (∀ l ∈ jumpedLabels (emitted ops), l = a ∨ l = b ∨ l ∈ jumpedLabels code) ∧
      t.slot = s.slot ∧ Written ops) :
    OpsSpan (do
      let a ← freshLabel
      let b ← freshLabel
      body a b) := by
  intro s ops t hops
  simp only [Gen.bind_ok, Gen.freshLabel_ok] at hops
  obtain ⟨_, s₁, ⟨rfl, hl₁, hs₁, hp₁⟩, _, s₂, ⟨rfl, hl₂, hs₂, hp₂⟩, hops⟩ := hops
  obtain ⟨code, hspan, hbound, hjumps, hslot, hw⟩ := h _ _ _ _ _ hops
  refine ⟨hspan.enclose_two rfl hl₁ ?_ ?_ ?_ hbound hjumps, ?_, hw⟩ <;> omega

/-- Apart from the labels of the branches, and the jumps to the end, there is only the code of
the branches. -/
def ArmsSpan (policy : CasePolicy) (branches : List (List Int32 × Stmt)) : Prop :=
  ∀ (done : Label) (labels : List Label) s ops t, labels.length = branches.length →
    arms policy done labels branches s = .ok (ops, t) →
    ∃ code, Span s t code ∧ t.slot = s.slot ∧ Written ops ∧
      (∀ l, (boundLabels (emitted ops)).count l = labels.count l + (boundLabels code).count l) ∧
      ∀ l ∈ jumpedLabels (emitted ops), l = done ∨ l ∈ jumpedLabels code

lemma armsSpan_nil {policy : CasePolicy} : ArmsSpan policy [] := by
  intro done labels s ops t hlength h
  obtain rfl : labels = [] := List.length_eq_zero_iff.mp hlength
  simp only [arms, Gen.pure_ok] at h
  obtain ⟨rfl, rfl⟩ := h
  exact ⟨[], .straight (by simp [Straight]), rfl, by simp⟩

lemma armsSpan_cons {policy : CasePolicy} {values : List Int32} {c : Stmt}
    {rest : List (List Int32 × Stmt)} (hc : OpsSpan (stmt policy c))
    (hrest : ArmsSpan policy rest) : ArmsSpan policy ((values, c) :: rest) := by
  intro done labels s ops t hlength h
  obtain ⟨l, labels, rfl⟩ := List.exists_cons_of_length_eq_add_one hlength
  simp only [arms, Gen.bind_ok, Gen.pure_ok] at h
  obtain ⟨code, u, hcode, more, v, hmore, rfl, rfl⟩ := h
  obtain ⟨hspan, hslot, hw⟩ := hc _ _ _ hcode
  obtain ⟨codes, hspan', hslot', hw', hbound, hjumps⟩ :=
    hrest _ _ _ _ _ (by simpa using hlength) hmore
  refine ⟨emitted code ++ codes, hspan.append hspan', hslot'.trans hslot, by simp [*],
    fun m => ?_, fun m hm => ?_⟩
  · simp [Instr.bound?, List.count_cons, hbound]
    omega
  · have := hjumps m
    simp [Instr.targets] at hm ⊢
    tauto

/-- A case statement has one label for its end, one for each branch, and one for the default if
it has one. -/
lemma caseOf_spans {policy : CasePolicy} (selector : Expr) {branches : List (List Int32 × Stmt)}
    {otherwise : Option Stmt} (harms : ArmsSpan policy branches)
    (hotherwise : OpsSpan (optional policy otherwise)) :
    OpsSpan (stmt policy (.caseOf selector branches otherwise)) := by
  rw [stmt]
  refine .entering fun s ops t h => ?_
  simp only [Gen.bind_ok, Gen.pure_ok, Gen.freshLabel_ok, defaultLabel_ok, Prod.exists] at h
  obtain ⟨_, s₁, ⟨rfl, hl₁, hs₁, hp₁⟩, labels, table, s₂, hT, default, s₃,
    ⟨hdefault, hs₃, hp₃, hl₃⟩, codeE, s₄, hE, codeB, s₅, hB, codeD, s₆, hD, rfl, rfl⟩ := h
  obtain ⟨hlabels, hl₂, hs₂, hp₂, htargets⟩ := caseTable_ok hT
  obtain ⟨hE, hsE⟩ := expr_spans selector _ _ _ hE
  obtain ⟨codes, hB, hsB, hwB, hbound, hjumps⟩ := harms _ _ _ _ _ (by simp [hlabels]) hB
  obtain ⟨hD, hsD, hwD⟩ := hotherwise _ _ _ hD
  have hgrow := hE.peak_le.trans (hB.peak_le.trans hD.peak_le)
  set own := s.label :: (labels ++ if otherwise.isSome then [default] else []) with hown
  refine ⟨((hE.append hB).append hD).enclose own ?_ ?_ (by omega) (by omega) (fun l => ?_)
    fun l hl => ?_, by omega, by simp [*]⟩
  · cases otherwise with
    | none => simp [hown, hlabels, List.range'_succ, hl₁]
    | some c =>
      have hlast : List.range' (s.label + 1) (branches.length + 1) =
          List.range' (s.label + 1) branches.length ++ [s.label + 1 + branches.length] := by
        rw [List.range'_concat, one_mul]
      rw [hown, List.length_cons, List.range'_succ]
      simp [hlabels, hdefault, hl₂, hl₁, hlast]
  · cases otherwise <;> simp_all <;> omega
  · cases otherwise <;> simp [Instr.bound?, List.count_cons, hbound, hown] <;> omega
  · have := hjumps l
    have := htargets l
    cases otherwise <;> simp [Instr.targets, hown, hdefault] at hl this ⊢ <;> grind

mutual

lemma stmt_spans (policy : CasePolicy) : (c : Stmt) → OpsSpan (stmt policy c)
  | .empty => by
    rw [stmt]
    exact opsSpan_nil.entering
  | .compound body => by
    rw [stmt]
    exact (stmts_spans policy body).entering
  | .assign target value => by
    rw [stmt]
    exact (assign_spans target value).asm.entering
  | .ifThen cond yes no => by
    rw [stmt]
    refine .entering (.twoLabels fun yesLabel done s ops t h => ?_)
    simp only [Gen.bind_ok, Gen.pure_ok] at h
    obtain ⟨codeC, s₁, hC, codeN, s₂, hN, codeY, s₃, hY, rfl, rfl⟩ := h
    obtain ⟨hC, hsC⟩ := expr_spans cond _ _ _ hC
    obtain ⟨hN, hsN, hwN⟩ := optional_spans policy no _ _ _ hN
    obtain ⟨hY, hsY, hwY⟩ := stmt_spans policy yes _ _ _ hY
    refine ⟨_, (hC.append hN).append hY, fun l => ?_, fun l hl => ?_, by omega, by simp [*]⟩
    · simp [Instr.bound?, List.count_cons]
      omega
    · simp [Instr.targets] at hl ⊢
      tauto
  | .caseOf selector branches otherwise =>
    caseOf_spans selector (arms_spans policy branches) (optional_spans policy otherwise)
  | .repeatUntil body cond => by
    rw [stmt]
    refine .entering (.twoLabels fun top exit s ops t h => ?_)
    simp only [Gen.bind_ok, Gen.pure_ok] at h
    obtain ⟨codeB, s₁, hB, codeC, s₂, hC, rfl, rfl⟩ := h
    obtain ⟨hB, hsB, hwB⟩ := stmts_spans policy body _ _ _ hB
    obtain ⟨hC, hsC⟩ := expr_spans cond _ _ _ hC
    refine ⟨_, hB.append hC, fun l => ?_, fun l hl => ?_, by omega, by simp [*]⟩
    · simp [Instr.bound?, List.count_cons]
      omega
    · simp [Instr.targets] at hl ⊢
      tauto
  | .whileDo cond body => by
    rw [stmt]
    refine .entering (.twoLabels fun top exit s ops t h => ?_)
    simp only [Gen.bind_ok, Gen.pure_ok] at h
    obtain ⟨codeC, s₁, hC, codeB, s₂, hB, rfl, rfl⟩ := h
    obtain ⟨hC, hsC⟩ := expr_spans cond _ _ _ hC
    obtain ⟨hB, hsB, hwB⟩ := stmt_spans policy body _ _ _ hB
    refine ⟨_, hC.append hB, fun l => ?_, fun l hl => ?_, by omega, by simp [*]⟩
    · simp [Instr.bound?, List.count_cons]
      omega
    · simp [Instr.targets] at hl ⊢
      tauto
  | .forDo counter first last down body => by
    rw [stmt]
    refine .entering (.twoLabels fun top exit s ops t h => ?_)
    simp only [Gen.bind_ok, Gen.pure_ok] at h
    obtain ⟨codeA, s₁, hA, codeL, s₂, hL, codeV, s₃, hV, codeB, s₄, hB, codeS, s₅, hS, rfl, rfl⟩ := h
    obtain ⟨hA, hsA⟩ := assign_spans counter first _ _ _ hA
    obtain ⟨hL, hsL⟩ := expr_spans last _ _ _ hL
    obtain ⟨hV, hsV⟩ := load_spans counter _ _ _ hV
    obtain ⟨hB, hsB, hwB⟩ := stmt_spans policy body _ _ _ hB
    obtain ⟨hS, hsS⟩ := stepCounter_spans counter down _ _ _ hS
    refine ⟨_, (((hA.append hL).append hV).append hB).append hS, fun l => ?_, fun l hl => ?_,
      by omega, by simp [*]⟩
    · simp [Instr.bound?, List.count_cons]
      omega
    · simp [Instr.targets] at hl ⊢
      tauto
  | .procedureCall callee args => by
    rw [stmt]
    exact (call_spans callee args).asm.entering
  | .functionCall callee args => by
    rw [stmt]
    refine .entering fun s ops t h => ?_
    simp only [Gen.bind_ok, Gen.pure_ok] at h
    obtain ⟨code, u, hcode, rfl, rfl⟩ := h
    obtain ⟨hspan, hslot⟩ := call_spans callee args _ _ _ hcode
    refine ⟨?_, hslot, written_asm _⟩
    rw [emitted_asm]
    exact hspan.snoc (by simp [Straight, Instr.straight])
  | .write line args => by
    rw [stmt]
    exact (write_spans line args).asm.entering
  | .read line targets => by
    rw [stmt]
    exact (read_spans line targets).asm.entering

lemma stmts_spans (policy : CasePolicy) : (cs : List Stmt) → OpsSpan (stmts policy cs)
  | [] => by
    rw [stmts]
    exact opsSpan_nil
  | c :: cs => by
    intro s ops t h
    simp only [stmts, Gen.bind_ok, Gen.pure_ok] at h
    obtain ⟨code, u, hcode, rest, v, hrest, rfl, rfl⟩ := h
    obtain ⟨hspan, hslot, hw⟩ := stmt_spans policy c _ _ _ hcode
    obtain ⟨hspan', hslot', hw'⟩ := stmts_spans policy cs _ _ _ hrest
    exact ⟨by simpa using hspan.append hspan', hslot'.trans hslot, by simp [*]⟩

lemma optional_spans (policy : CasePolicy) : (c : Option Stmt) → OpsSpan (optional policy c)
  | none => by
    rw [optional]
    exact opsSpan_nil
  | some c => by
    rw [optional]
    exact stmt_spans policy c

lemma arms_spans (policy : CasePolicy) : (branches : List (List Int32 × Stmt)) →
    ArmsSpan policy branches
  | [] => armsSpan_nil
  | (_, c) :: rest => armsSpan_cons (stmt_spans policy c) (arms_spans policy rest)

end

lemma initFields_spans (record : String) (fields : List (String × Ty)) :
    Spans (initFields record fields) := by
  induction fields with
  | nil => exact spans_nil
  | cons field rest ih =>
    obtain ⟨name, ty⟩ := field
    intro s code t h
    simp only [initFields] at h
    split_ifs at h
    · simp only [Gen.bind_ok, Gen.pure_ok] at h
      obtain ⟨code', u, hcode, more, v, hmore, rfl, rfl⟩ := h
      obtain ⟨hspan, hslot⟩ := initial_spans ty _ _ _ hcode
      obtain ⟨hspan', hslot'⟩ := ih _ _ _ hmore
      have hself : Span s s [.load .ref 0] := .straight (by simp [Straight, Instr.straight])
      exact ⟨((hself.append hspan).snoc (by simp [Straight, Instr.straight])).append hspan',
        hslot'.trans hslot⟩
    · exact ih _ _ _ h

lemma initGlobals_spans (globals : List (String × Ty)) : Spans (initGlobals globals) := by
  induction globals with
  | nil => exact spans_nil
  | cons global rest ih =>
    intro s code t h
    simp only [initGlobals, Gen.bind_ok, Gen.pure_ok] at h
    obtain ⟨code', u, hcode, more, v, hmore, rfl, rfl⟩ := h
    obtain ⟨hspan, hslot⟩ := initial_spans global.2 _ _ _ hcode
    obtain ⟨hspan', hslot'⟩ := ih _ _ _ hmore
    exact ⟨(hspan.snoc (by simp [Straight, Instr.straight])).append hspan', hslot'.trans hslot⟩

lemma initLocals_spans (vars : List Local) : Spans (initLocals vars) := by
  induction vars with
  | nil => exact spans_nil
  | cons v rest ih =>
    intro s code t h
    simp only [initLocals, Gen.bind_ok, Gen.pure_ok] at h
    obtain ⟨code', u, hcode, more, w, hmore, rfl, rfl⟩ := h
    obtain ⟨hspan, hslot⟩ := initial_spans v.ty _ _ _ hcode
    obtain ⟨hspan', hslot'⟩ := ih _ _ _ hmore
    exact ⟨(hspan.snoc (by simp [Straight, Instr.straight])).append hspan', hslot'.trans hslot⟩

lemma leave_span (result : Option Local) {s : Supply} : Span s s (leave result) := by
  cases result <;> exact .unlabelled rfl rfl

@[simp] theorem emitted_labelled (n : Nat) (ops : List Op) :
    emitted (labelled n ops) = emitted ops := by
  induction n with
  | zero => rfl
  | succ n ih => simpa [labelled, List.replicate_succ] using ih

lemma knownBeforeUse_labelled {n : Nat} {ops : List Op}
    (h : ∀ ins ∈ emitted ops, ∀ l ∈ ins.mentions, l < n) : KnownBeforeUse (labelled n ops) := by
  intro i ins hi l hl
  have hpast : n ≤ i := by
    by_contra hlt
    rw [labelled, List.getElem?_append_left (by simpa using hlt), List.getElem?_replicate,
      if_pos (by omega)] at hi
    simp at hi
  have hcount : n ≤ ((labelled n ops).take i).countP Op.makesLabel := by
    rw [labelled, List.take_append, List.take_of_length_le (by simpa using hpast),
      List.countP_append, List.countP_replicate,
      if_pos (show Op.newLabel.makesLabel = true from rfl)]
    omega
  have hmem : ins ∈ emitted (labelled n ops) :=
    List.mem_filterMap.mpr ⟨_, List.mem_of_getElem? hi, rfl⟩
  rw [emitted_labelled] at hmem
  exact (h ins hmem l hl).trans_le hcount

lemma builds_labelled {n : Nat} {ops : List Op} (hw : Written ops) :
    ∀ op ∈ labelled n ops, op.builds = true := by
  intro op hop
  rcases List.mem_append.mp hop with hop | hop
  · rw [List.eq_of_mem_replicate hop]
    rfl
  · exact (hw op hop).1

/-- A body whose labels are drawn from the start of the supply assembles as soon as its depths
are consistent. -/
lemma assemble_labelled {s t : Supply} {ops : List Op} {depth : Nat → Nat} (hs : s.label = 0)
    (hspan : Span s t (emitted ops)) (hw : Written ops) (hdepth : Consistent (emitted ops) depth) :
    ∃ m, assemble (labelled t.label ops) = .ok ⟨emitted ops, m⟩ ∧
      IsGreatest (insert 0 (reaches (emitted ops) depth)) m := by
  have hmem {l : Label} : l ∈ boundLabels (emitted ops) ↔ l < t.label := by
    rw [← List.count_pos_iff, hspan.bound]
    split_ifs <;> grind
  have hknown : KnownBeforeUse (labelled t.label ops) := by
    refine knownBeforeUse_labelled fun ins hins l hl => ?_
    rcases List.mem_append.mp hl with hl | hl
    · exact hmem.mp (List.mem_filterMap.mpr ⟨ins, hins, by simpa using hl⟩)
    · exact (hspan.jumps (List.mem_flatMap.mpr ⟨ins, hins, hl⟩)).2
  have hall := @assemble_of_consistent _ depth (builds_labelled hw) hknown
  simp only [emitted_labelled] at hall
  exact hall hspan.nodup (fun l hl => hmem.mpr (hspan.jumps hl).2) hdepth

end PascalJvm.Emit
