import Mathlib.Tactic
import PascalJvm.Proofs.Flow
import PascalJvm.Proofs.FreshLabels
import PascalJvm.Proofs.Operators

/-!
# Frames through the code of expressions

The code of a well-typed expression takes every frame in which the variables are set to the
same frame with one more operand, of the type of the expression. Temporary slots are set above
the variables and forgotten at the end of the construct that took them, so that the frame after
an expression promises no more about the slots than the one before it.
-/
namespace PascalJvm.Emit

open Jvm Typed

/-- The labels between the supplies `s` and `t` can be given frames so that `P` holds, in every
method that has the slots which were in use in between. -/
structure Arranged (program : String) (s t : Supply) (P : Context → (Label → Frame) → Prop) :
    Prop where
  label_le : s.label ≤ t.label
  peak_le : s.peak ≤ t.peak
  framed : Framed s.label t.label fun frames => ∀ ctx : Context, ctx.program = program →
    t.peak ≤ ctx.slots → P ctx frames

namespace Arranged

variable {program : String} {s t u : Supply} {P Q : Context → (Label → Frame) → Prop}

lemma mono (h : Arranged program s t P) (hPQ : ∀ ctx frames, P ctx frames → Q ctx frames) :
    Arranged program s t Q where
  label_le := h.label_le
  peak_le := h.peak_le
  framed := h.framed.mono fun frames hframes ctx hp hslots =>
    hPQ ctx frames (hframes ctx hp hslots)

lemma and (h : Arranged program s t P) (h' : Arranged program t u Q) :
    Arranged program s u fun ctx frames => P ctx frames ∧ Q ctx frames where
  label_le := h.label_le.trans h'.label_le
  peak_le := h.peak_le.trans h'.peak_le
  framed := (h.framed.and h'.framed h.label_le h'.label_le).mono fun _ hframes ctx hp hslots =>
    ⟨hframes.1 ctx hp (h'.peak_le.trans hslots), hframes.2 ctx hp hslots⟩

/-- The labels of a construct itself, which all have the frame `F`, around those of its parts. -/
lemma own (F : Frame) (h : Arranged program u t P) (hlabel : s.label ≤ u.label)
    (hpeak : s.peak ≤ u.peak)
    (hPQ : ∀ ctx frames, (∀ l, s.label ≤ l → l < u.label → frames l = F) → P ctx frames →
      Q ctx frames) : Arranged program s t Q where
  label_le := hlabel.trans h.label_le
  peak_le := hpeak.trans h.peak_le
  framed := (h.framed.own F hlabel h.label_le).mono fun frames hframes ctx hp hslots =>
    hPQ ctx frames hframes.1 (hframes.2 ctx hp hslots)

lemma release (h : Arranged program s t P) (hl : u.label = t.label) (hp : u.peak = t.peak) :
    Arranged program s u P where
  label_le := hl ▸ h.label_le
  peak_le := hp ▸ h.peak_le
  framed := by
    rw [hl, hp]
    exact h.framed

/-- Slots are taken before the code. -/
lemma reserve (h : Arranged program t u P) (hl : t.label = s.label) (hp : s.peak ≤ t.peak) :
    Arranged program s u P where
  label_le := hl ▸ h.label_le
  peak_le := hp.trans h.peak_le
  framed := hl ▸ h.framed

end Arranged

/-- The code takes the frame `F` to the frame `G`. -/
abbrev Carries (program : String) (s t : Supply) (F : Frame) (code : List Instr) (G : Frame) :
    Prop :=
  Arranged program s t fun ctx frames => Flow ctx frames [] (.live F) code (.live G)

namespace Carries

variable {program : String} {s t u : Supply} {F F' G G' H : Frame} {code code' : List Instr}

lemma straight (hs : Straight code)
    (h : ∀ ctx : Context, ctx.program = program → s.peak ≤ ctx.slots →
      checkAll ctx code F = some G) : Carries program s s F code G where
  label_le := le_refl _
  peak_le := le_refl _
  framed := .of_forall fun _ ctx hp hslots => flow_of_checkAll hs (h ctx hp hslots)

lemma append (h : Carries program s t F code G) (h' : Carries program t u G code' H) :
    Carries program s u F (code ++ code') H :=
  (h.and h').mono fun _ _ hflow => hflow.1.append hflow.2

lemma weaken (h : Carries program s t F code G) (hG : G ≤ G') : Carries program s t F code G' :=
  h.mono fun ctx frames hflow => by
    have hend : Flow ctx frames [] (.live G) [] (.live G') := hG
    simpa using hflow.append hend

end Carries

section Words

variable {program : String} {t u : Ty}

@[simp] theorem holds_ofTy (program : String) (t : Ty) :
    (Kind.ofTy t).holds (Word.ofTy program t) = true := by
  cases t with
  | basic b => cases b <;> rfl
  | _ => rfl

@[simp] theorem takes_ofTy (program : String) (t : Ty) :
    (Desc.ofTy program t).takes (Word.ofTy program t) = true := Desc.takes_word _

@[simp] theorem elements_ofTy (program : String) (t : Ty) :
    (Kind.ofTy t).elements (Desc.ofTy program t) = true := by
  cases t with
  | basic b => cases b <;> rfl
  | _ => rfl

lemma word_of_isOrdinal (h : t.isOrdinal = true) : Word.ofTy program t = .int := by
  cases t with
  | basic b => cases b <;> first | rfl | cases h
  | enum name => rfl
  | record => cases h
  | array => cases h

lemma word_of_retypes (h : t.Retypes u) : Word.ofTy program u = Word.ofTy program t := by
  rcases h with rfl | ⟨ht, hu⟩
  · rfl
  · rw [word_of_isOrdinal ht, word_of_isOrdinal hu]

/-- What is the same type is held in the same way. -/
lemma desc_of_same (h : t.same u = true) : Desc.ofTy program t = Desc.ofTy program u := by
  fun_induction Ty.same t u with
  | case1 a b => simp_all
  | case2 a b => rfl
  | case3 a _ b _ => simp_all [Desc.ofTy]
  | case4 lowA lenA a lowB lenB b ih =>
    simp only [Bool.and_eq_true] at h
    simp [Desc.ofTy, ih h.2]
  | case5 => cases h

lemma word_of_same (h : t.same u = true) : Word.ofTy program t = Word.ofTy program u :=
  congrArg Desc.word (desc_of_same h)

lemma word_of_record {name : String} {fields : List (String × Ty)} (h : t = .record name fields) :
    Word.ofTy program t = .ref (.object (Listing.recordClass program name)) := by
  rw [h]
  rfl

lemma word_of_array {low : Int32} {len : Nat} {elem : Ty} (h : t = .array low len elem) :
    Word.ofTy program t = .ref (.array (.ofTy program elem)) := by
  rw [h]
  rfl

end Words

/-- The slots of the variables are set, and all slots above the supply's are free. -/
structure Ready (Γ : Variables) (program : String) (s : Supply) (L : Nat → Option Word) :
    Prop where
  vars {n : Nat} {d : ParamDesc} (h : Γ.slots[n]? = some d) :
    L n = some (Desc.ofParam program d).word
  slots_le : Γ.slots.length ≤ s.slot
  slot_le : s.slot ≤ s.peak
  free {n : Nat} (h : s.slot ≤ n) : L n = none

namespace Ready

variable {Γ : Variables} {program : String} {s t : Supply} {L : Nat → Option Word}

lemma next (h : Ready Γ program s L) (hslot : t.slot = s.slot) (hpeak : s.peak ≤ t.peak) :
    Ready Γ program t L where
  vars := h.vars
  slots_le := hslot ▸ h.slots_le
  slot_le := by have := h.slot_le; omega
  free hn := h.free (by omega)

/-- A temporary slot is taken. -/
lemma push (h : Ready Γ program s L) (hslot : t.slot = s.slot + 1)
    (hpeak : t.peak = max s.peak (s.slot + 1)) (w : Word) :
    Ready Γ program t (Function.update L s.slot (some w)) where
  vars {n d} hd := by
    have hlt := (List.getElem?_eq_some_iff.mp hd).1
    have hle := h.slots_le
    rw [Function.update_of_ne (by omega)]
    exact h.vars hd
  slots_le := by have := h.slots_le; omega
  slot_le := by omega
  free hn := by
    rw [Function.update_of_ne (by omega)]
    exact h.free (by omega)

lemma lt_slot (h : Ready Γ program s L) {n : Nat} {w : Word} (hn : L n = some w) : n < s.slot := by
  by_contra hge
  rw [h.free (by omega)] at hn
  cases hn

/-- A slot that is set is one of the method's. -/
lemma lt_slots (h : Ready Γ program s L) {n : Nat} {w : Word} (hn : L n = some w) {slots : Nat}
    (hslots : s.peak ≤ slots) : n < slots := by
  have hlt := h.lt_slot hn
  have hle := h.slot_le
  omega

/-- What was set stays so when a temporary slot is taken. -/
lemma push_keeps (h : Ready Γ program s L) (w : Word) (n : Nat) (v : Word) (hn : L n = some v) :
    Function.update L s.slot (some w) n = some v := by
  rw [Function.update_of_ne (h.lt_slot hn).ne, hn]

end Ready

/-- In a method with these variables, the code that `x` generates leaves `ws` on the stack, the
top one first, and nothing else. -/
def Pushes (Γ : Variables) (program : String) (x : Gen (List Instr)) (ws : List Word) : Prop :=
  ∀ s code t L, x s = .ok (code, t) → Ready Γ program s L →
    Ready Γ program t L ∧
      ∀ stack, Carries program s t ⟨stack, L⟩ code ⟨ws ++ stack, L⟩

section Symbols

variable {Γ : Variables} {program : String} {s : Supply} {L : Nat → Option Word}
  {stack : List Word}

/-- Code that loads one slot. -/
lemma load_carries (hR : Ready Γ program s L) {k : Kind} {n : Nat} {w : Word} (hn : L n = some w)
    (hk : k.holds w = true) :
    Carries program s s ⟨stack, L⟩ [.load k n] ⟨w :: stack, L⟩ := by
  refine .straight (by simp [Straight, Instr.straight]) fun ctx hp hslots => ?_
  have hlt := hR.lt_slots hn hslots
  simp [checkAll, check, hn, hlt, hk]

/-- Code that sets one slot. -/
lemma setSlot_carries {k : Kind} {n : Nat} {w : Word} (hn : n < s.peak) (hk : k.holds w = true) :
    Carries program s s ⟨w :: stack, L⟩ [.store k n] ⟨stack, Function.update L n (some w)⟩ := by
  refine .straight (by simp [Straight, Instr.straight]) fun ctx hp hslots => ?_
  have hlt : n < ctx.slots := by omega
  simp [checkAll, check, hlt, hk]

/-- The stack after code that works on the stack alone. -/
def stackAfter (program : String) (code : List Instr) (stack : List Word) : Option (List Word) :=
  code.foldlM (fun st ins => ins.onStack program st) stack

@[simp] theorem stackAfter_nil (program : String) (stack : List Word) :
    stackAfter program [] stack = some stack := rfl

@[simp] theorem stackAfter_cons (program : String) (ins : Instr) (code : List Instr)
    (stack : List Word) : stackAfter program (ins :: code) stack =
      (ins.onStack program stack).bind (stackAfter program code) := rfl

lemma stack_carries {code : List Instr} {after : List Word} (hs : Straight code)
    (h : stackAfter program code stack = some after) :
    Carries program s s ⟨stack, L⟩ code ⟨after, L⟩ := by
  refine .straight hs fun ctx hp _ => ?_
  subst hp
  clear hs
  induction code generalizing stack with
  | nil =>
    cases h
    rfl
  | cons ins code ih =>
    obtain ⟨mid, hmid, h⟩ := Option.bind_eq_some_iff.mp h
    have hcheck : check ctx ins ⟨stack, L⟩ = some ⟨mid, L⟩ := by
      cases ins
      case load | store | ret => cases hmid
      all_goals simp [check, hmid]
    rw [checkAll, List.foldlM_cons, hcheck]
    exact ih h

/-- Code that takes the value out of a cell. -/
lemma cellContent_carries (hR : Ready Γ program s L) {n : Nat} {ty : Ty}
    (hn : L n = some (.ref (.array (.ofTy program ty)))) :
    Carries program s s ⟨stack, L⟩ [.load .ref n, .pushInt 0, .arrayLoad (.ofTy ty)]
      ⟨Word.ofTy program ty :: stack, L⟩ := by
  refine (load_carries hR hn rfl).append (stack_carries ?_ ?_)
  · simp [Straight, Instr.straight]
  · simp [Instr.onStack, Instr.host?, Instr.plain]

lemma loadSymbol_carries {v : Symbol} (hv : v.Declared Γ) (hR : Ready Γ program s L) :
    Carries program s s ⟨stack, L⟩ (loadSymbol v v.ty) ⟨Word.ofTy program v.ty :: stack, L⟩ := by
  obtain ⟨name, storage, ty⟩ := v
  cases storage with
  | static field => exact stack_carries (straight_loadSymbol _ _) rfl
  | slot n => exact load_carries hR (hR.vars hv) (holds_ofTy program ty)
  | cell n => exact cellContent_carries hR (hR.vars hv)

lemma loadObject_pushes {v : Symbol} (hv : v.Declared Γ) (hty : v.ty.isAggregate = true) :
    Pushes Γ program (loadObject v) [Word.ofTy program v.ty] := by
  intro s code t L h hR
  obtain ⟨name, storage, ty⟩ := v
  cases storage with
  | static field =>
    simp only [loadObject, Gen.pure_ok] at h
    obtain ⟨rfl, rfl⟩ := h
    exact ⟨hR, fun stack => stack_carries (by simp [Straight, Instr.straight]) rfl⟩
  | slot n =>
    simp only [loadObject, Gen.pure_ok] at h
    obtain ⟨rfl, rfl⟩ := h
    refine ⟨hR, fun stack => load_carries hR (hR.vars hv) ?_⟩
    cases ty <;> first | rfl | cases hty
  | cell n => simp [loadObject, Gen.throw_ok] at h

lemma loadVia_pushes {walk : Gen (List Instr)} {place : Place} (hplace : place.WellTyped Γ)
    (hwalk : (∀ v, place ≠ .root v) → Pushes Γ program walk [Word.ofTy program place.ty]) :
    Pushes Γ program (loadVia walk place.ty place) [Word.ofTy program place.ty] := by
  cases place with
  | root v =>
    intro s code t L h hR
    simp only [loadVia, Gen.pure_ok] at h
    obtain ⟨rfl, rfl⟩ := h
    exact ⟨hR, fun stack => loadSymbol_carries hplace hR⟩
  | field => exact hwalk (by simp)
  | element => exact hwalk (by simp)

/-- What the store into a place finds below the value, the top one first. -/
def addressWords (program : String) : Place → List Word
  | .root ⟨_, .cell _, ty⟩ => [.int, .ref (.array (.ofTy program ty))]
  | .root _ => []
  | .field base _ _ _ => [Word.ofTy program base.ty]
  | .element base _ _ _ => [.int, Word.ofTy program base.ty]

lemma symbolAddress_carries {v : Symbol} (hv : v.Declared Γ) (hR : Ready Γ program s L) :
    Carries program s s ⟨stack, L⟩ (symbolAddress v) ⟨addressWords program (.root v) ++ stack, L⟩ := by
  obtain ⟨name, storage, ty⟩ := v
  cases storage with
  | static field => exact stack_carries (straight_symbolAddress _) rfl
  | slot n => exact stack_carries (straight_symbolAddress _) rfl
  | cell n =>
    refine (load_carries hR (hR.vars hv) rfl).append (stack_carries ?_ rfl)
    simp [Straight, Instr.straight]

lemma store_carries {place : Place} (hplace : place.WellTyped Γ) (hR : Ready Γ program s L) :
    Carries program s s ⟨Word.ofTy program place.ty :: (addressWords program place ++ stack), L⟩
      (store place.ty place) ⟨stack, L⟩ := by
  cases place with
  | root v =>
    obtain ⟨name, storage, ty⟩ := v
    cases storage with
    | static field =>
      refine stack_carries (straight_store _ _) ?_
      simp [store, addressWords, Instr.onStack, Instr.host?, Instr.plain, FieldRef.global]
    | slot n =>
      refine .straight (straight_store _ _) fun ctx hp hslots => ?_
      have hn : L n = some (Word.ofTy program ty) := hR.vars hplace
      have hlt := hR.lt_slots hn hslots
      have hsame : Function.update L n (some (Word.ofTy program ty)) = L := by
        rw [← hn, Function.update_eq_self]
      simp [store, addressWords, checkAll, check, hlt, hsame]
    | cell n =>
      refine stack_carries (straight_store _ _) ?_
      simp [store, addressWords, Instr.onStack, Instr.host?, Instr.plain]
  | field base record name ty =>
    obtain ⟨-, fields, hty, -⟩ := hplace
    refine stack_carries (straight_store _ _) ?_
    simp [store, addressWords, word_of_record hty, Instr.onStack, Instr.host?, Instr.plain,
      FieldRef.member, Listing.ownerClass]
  | element base index low elem =>
    obtain ⟨-, -, -, len, hty⟩ := hplace
    refine stack_carries (straight_store _ _) ?_
    simp [store, addressWords, word_of_array hty, Instr.onStack, Instr.host?, Instr.plain]

end Symbols

section Operators

variable {Γ : Variables} {program : String} {s : Supply} {L : Nat → Option Word}
  {stack : List Word} {tyA tyB : Ty} {a b : Gen (List Instr)}

lemma rebase_carries (low : Int32) :
    Carries program s s ⟨.int :: stack, L⟩ (rebase low) ⟨.int :: stack, L⟩ := by
  refine stack_carries (straight_rebase low) ?_
  unfold rebase
  split_ifs <;> rfl

/-- A number that is widened to a float. -/
lemma widenTo_float_carries {t : Ty} (ht : t.isNumeric = true) :
    Carries program s s ⟨Word.ofTy program t :: stack, L⟩ (widenTo .float t)
      ⟨.float :: stack, L⟩ := by
  refine stack_carries (straight_widenTo _ t) ?_
  rcases Ty.isNumeric_iff.mp ht with rfl | rfl <;> rfl

@[simp] theorem widenTo_int (t : Ty) : widenTo .int t = [] := rfl

/-- A value that a place accepts is held like the content of the place once it is widened. -/
lemma widen_carries {target value : Ty} (h : target.accepts value = true) :
    Carries program s s ⟨Word.ofTy program value :: stack, L⟩ (widen target value)
      ⟨Word.ofTy program target :: stack, L⟩ := by
  refine stack_carries (straight_widen target value) ?_
  rcases widen_cases h with ⟨hsame, hcode⟩ | ⟨rfl, rfl, hcode⟩
  · rw [hcode, word_of_same hsame, stackAfter_nil]
  · rfl

/-- Both operands, each widened to the kind of the operation. -/
lemma operands_carries {k : Kind} {w : Word} {u t : Supply} {codeA codeB : List Instr}
    (ha : Pushes Γ program a [Word.ofTy program tyA])
    (hb : Pushes Γ program b [Word.ofTy program tyB])
    (hk : (k = .float ∧ tyA.isNumeric = true ∧ tyB.isNumeric = true ∧ w = .float) ∨
      (k = .int ∧ Word.ofTy program tyA = w ∧ Word.ofTy program tyB = w))
    (hA : a s = .ok (codeA, u)) (hB : b u = .ok (codeB, t)) (hR : Ready Γ program s L) :
    Ready Γ program t L ∧ ∀ stack, Carries program s t ⟨stack, L⟩
      (codeA ++ widenTo k tyA ++ codeB ++ widenTo k tyB) ⟨w :: w :: stack, L⟩ := by
  obtain ⟨hR', hA⟩ := ha _ _ _ _ hA hR
  obtain ⟨hR'', hB⟩ := hb _ _ _ _ hB hR'
  refine ⟨hR'', fun stack => ?_⟩
  rcases hk with ⟨rfl, hnumA, hnumB, rfl⟩ | ⟨rfl, hwA, hwB⟩
  · exact (((hA stack).append (widenTo_float_carries hnumA)).append (hB _)).append
      (widenTo_float_carries hnumB)
  · rw [widenTo_int, widenTo_int, List.append_nil, List.append_nil]
    have hA := hA stack
    have hB := hB (w :: stack)
    rw [hwA] at hA
    rw [hwB] at hB
    exact hA.append hB

/-- The end of a comparison: one branch pushes 0, the other one 1. -/
lemma choice_flow {ctx : Context} {frames : Label → Frame} {seen : List Label} {yes done : Label}
    (hseen : yes ∈ seen) (hyes : frames yes = ⟨stack, L⟩)
    (hdone : frames done = ⟨.int :: stack, L⟩) :
    Flow ctx frames seen (.live ⟨stack, L⟩)
      [.pushInt 0, .goto done, .label yes, .pushInt 1, .label done]
      (.live ⟨.int :: stack, L⟩) := by
  have hjump : ∀ l ∈ (Instr.goto done).targets, (⟨.int :: stack, L⟩ : Frame) ≤ frames l := by
    simp [Instr.targets, hdone]
  refine ⟨_, .next (by simp) rfl rfl (by simp [Instr.targets]), _, .stop rfl rfl hjump, _,
    .land (.inl (by simp [hseen])), ?_⟩
  rw [hyes]
  refine ⟨_, .next (by simp) rfl rfl (by simp [Instr.targets]), _, .label hdone.ge, ?_⟩
  exact (show frames done ≤ _ from hdone.le)

/-- The operands have words of one kind, and the test takes both. -/
lemma compare_flow (program : String) (hcomp : Check.comparable tyA tyB = true) :
    ∃ w, ((compareKind tyA tyB = .float ∧ tyA.isNumeric = true ∧ tyB.isNumeric = true ∧
        w = .float) ∨
      (compareKind tyA tyB = .int ∧ Word.ofTy program tyA = w ∧ Word.ofTy program tyB = w)) ∧
      ∀ (ctx : Context) (frames : Label → Frame) (rel : Relation) (yes : Label)
        (stack : List Word) (L : Nat → Option Word), frames yes = ⟨stack, L⟩ →
        Flow ctx frames [] (.live ⟨w :: w :: stack, L⟩) (compare rel tyA tyB yes)
          (.live ⟨stack, L⟩) := by
  have htest : ∀ {frames : Label → Frame} {yes : Label} {F : Frame}, frames yes = F →
      ∀ l ∈ [yes], F ≤ frames l := by simp
  rcases compare_cases hcomp with ⟨hk, ha, hb, -, hcode⟩ | ⟨hk, rfl, rfl, hcode⟩ | ⟨hk, ha, hb, hcode⟩
  · refine ⟨.float, .inl ⟨hk, ha, hb, rfl⟩, fun ctx frames rel yes stack L hyes => ?_⟩
    rw [hcode]
    exact ⟨_, .next (by simp) rfl rfl (by simp [Instr.targets]), _,
      .next (by simp) rfl rfl (htest hyes), le_refl (Point.live _)⟩
  · refine ⟨.ref .string, .inr ⟨hk, rfl, rfl⟩, fun ctx frames rel yes stack L hyes => ?_⟩
    rw [hcode]
    exact ⟨_, .next (by simp) rfl rfl (by simp [Instr.targets]), _,
      .next (by simp) rfl rfl (htest hyes), le_refl (Point.live _)⟩
  · refine ⟨.int, .inr ⟨hk, word_of_isOrdinal ha, word_of_isOrdinal hb⟩,
      fun ctx frames rel yes stack L hyes => ?_⟩
    rw [hcode]
    exact ⟨_, .next (by simp) rfl rfl (htest hyes), le_refl (Point.live _)⟩

lemma relation_pushes {rel : Relation} (ha : Pushes Γ program a [Word.ofTy program tyA])
    (hb : Pushes Γ program b [Word.ofTy program tyB]) (hcomp : Check.comparable tyA tyB = true) :
    Pushes Γ program (relation rel tyA tyB a b) [.int] := by
  intro s code t L h hR
  simp only [relation, Gen.bind_ok, Gen.pure_ok, Gen.freshLabel_ok] at h
  obtain ⟨_, s₁, ⟨rfl, hl₁, hs₁, hp₁⟩, _, s₂, ⟨rfl, hl₂, hs₂, hp₂⟩, codeA, u, hA, codeB, v, hB, rfl,
    rfl⟩ := h
  obtain ⟨w, hk, hcompare⟩ := compare_flow program hcomp
  have hR₂ : Ready Γ program s₂ L := hR.next (by omega) (by omega)
  obtain ⟨hR', hoperands⟩ := operands_carries ha hb hk hA hB hR₂
  refine ⟨hR', fun stack => ?_⟩
  have hoperands := hoperands stack
  have hlabel := hoperands.label_le
  have hpeak := hoperands.peak_le
  refine ⟨by omega, by omega, ?_⟩
  refine (hoperands.framed.own_two ⟨stack, L⟩ ⟨.int :: stack, L⟩ hl₁ hl₂ hlabel).mono ?_
  rintro frames ⟨hyes, hdone, hflow⟩ ctx hp hslots
  rw [List.append_assoc]
  refine (hflow ctx hp hslots).append ?_
  exact (hcompare ctx frames rel s.label stack L hyes).append_seen
    (choice_flow (by simp) hyes hdone)

lemma arithmetic_pushes {op : BinOp} {ty r : Ty} (ha : Pushes Γ program a [Word.ofTy program tyA])
    (hb : Pushes Γ program b [Word.ofTy program tyB]) (hty : Check.Operands op tyA tyB r)
    (hop : relation? op = none) (hr : r.Retypes ty) :
    Pushes Γ program (arithmetic op ty tyA tyB a b) [Word.ofTy program ty] := by
  intro s code t L h hR
  simp only [arithmetic, Gen.bind_ok, Gen.pure_ok] at h
  obtain ⟨codeA, u, hA, codeB, v, hB, rfl, rfl⟩ := h
  rcases operatorKind_cases hty hop hr with ⟨hk, hnumA, hnumB, rfl, hops, -⟩ |
    ⟨hk, rfl, rfl, hord, hops⟩ | ⟨hk, rfl, rfl, hord, hops⟩ <;> rw [hk]
  · obtain ⟨hR', hoperands⟩ := operands_carries ha hb (.inl ⟨rfl, hnumA, hnumB, rfl⟩) hA hB hR
    refine ⟨hR', fun stack => (hoperands stack).append (stack_carries ?_ ?_)⟩
    · simp [Straight, Instr.straight]
    · rcases hops with rfl | rfl | rfl | rfl <;> rfl
  · obtain ⟨hR', hoperands⟩ := operands_carries ha hb (.inr ⟨rfl, rfl, rfl⟩) hA hB hR
    refine ⟨hR', fun stack => (hoperands stack).append (stack_carries ?_ ?_)⟩
    · simp [Straight, Instr.straight]
    · rw [word_of_isOrdinal hord]
      rcases hops with rfl | rfl | rfl | rfl | rfl <;> rfl
  · obtain ⟨hR', hoperands⟩ := operands_carries ha hb (.inr ⟨rfl, rfl, rfl⟩) hA hB hR
    refine ⟨hR', fun stack => (hoperands stack).append (stack_carries ?_ ?_)⟩
    · simp [Straight, Instr.straight]
    · rw [word_of_isOrdinal hord]
      rcases hops with rfl | rfl <;> rfl

end Operators

section Calls

variable {Γ : Variables} {program : String} {s t : Supply} {L : Nat → Option Word}

/-- What a routine finds in the slot of a parameter. -/
def paramWord (program : String) (p : Passing) : Word :=
  (Desc.ofParam program (.ofPassing p)).word

/-- Every cell that was made for an argument has the type of the argument. -/
def CellsHold (program : String) (L : Nat → Option Word) : List (Option Nat) → List Arg → Prop
  | some n :: cells, .ref _ ty :: args =>
      L n = some (.ref (.array (.ofTy program ty))) ∧ CellsHold program L cells args
  | none :: cells, _ :: args => CellsHold program L cells args
  | [], [] => True
  | _, _ => False

lemma intoCell_carries {ty : Ty} {load : Gen (List Instr)} {code : List Instr} {cell : Nat}
    (hload : Pushes Γ program load [Word.ofTy program ty])
    (h : intoCell ty load s = .ok ((code, cell), t)) (hR : Ready Γ program s L) :
    cell = s.slot ∧
      Ready Γ program t (Function.update L s.slot (some (.ref (.array (.ofTy program ty))))) ∧
      ∀ stack, Carries program s t ⟨stack, L⟩ code
        ⟨.ref (.array (.ofTy program ty)) :: stack,
          Function.update L s.slot (some (.ref (.array (.ofTy program ty))))⟩ := by
  simp only [intoCell, Gen.bind_ok, Gen.pure_ok, Gen.freshSlot_ok, Prod.mk.injEq] at h
  obtain ⟨_, u, ⟨rfl, hl, hs, hp⟩, code', v, hcode, ⟨rfl, rfl⟩, rfl⟩ := h
  set w : Word := .ref (.array (.ofTy program ty)) with hw
  set L' := Function.update L s.slot (some w)
  have hcell : L' s.slot = some w := by simp [L']
  have hR' := hR.push hs hp w
  obtain ⟨hR'', hcode⟩ := hload _ _ _ _ hcode hR'
  refine ⟨rfl, hR'', fun stack => ?_⟩
  have hmake : Carries program u u ⟨stack, L⟩ [.pushInt 1, .newArray ty] ⟨w :: stack, L⟩ :=
    stack_carries (by simp [Straight, Instr.straight]) rfl
  have hset : Carries program u u ⟨w :: stack, L⟩ [.store .ref s.slot] ⟨stack, L'⟩ :=
    setSlot_carries (by omega) rfl
  have hget : Carries program u u ⟨stack, L'⟩ [.load .ref s.slot] ⟨w :: stack, L'⟩ :=
    load_carries hR' hcell rfl
  have hindex : Carries program u u ⟨w :: stack, L'⟩ [.pushInt 0] ⟨.int :: w :: stack, L'⟩ :=
    stack_carries (by simp [Straight, Instr.straight]) rfl
  have hfill : Carries program v v ⟨Word.ofTy program ty :: .int :: w :: stack, L'⟩
      [.arrayStore (.ofTy ty)] ⟨stack, L'⟩ := by
    refine stack_carries (by simp [Straight, Instr.straight]) ?_
    simp [Instr.onStack, Instr.host?, Instr.plain, hw]
  have hget' : Carries program v v ⟨stack, L'⟩ [.load .ref s.slot] ⟨w :: stack, L'⟩ :=
    load_carries hR'' hcell rfl
  have hall := (((hmake.append hset).append (hget.append hindex)).append (hcode _)).append
    (hfill.append hget')
  exact hall.reserve hl (by omega)

lemma passRef_carries {p : Passing} {place : Place} {load : Gen (List Instr)} {code : List Instr}
    {cell : Option Nat} (hplace : place.WellTyped Γ) (hty : p.ty.same place.ty = true)
    (hload : Pushes Γ program load [Word.ofTy program place.ty]) (href : p.byRef = true)
    (h : passRef p.ty place load s = .ok ((code, cell), t)) (hR : Ready Γ program s L) :
    ∃ L', Ready Γ program t L' ∧ (∀ n w, L n = some w → L' n = some w) ∧
      CellsHold program L' [cell] [.ref place place.ty] ∧
      ∀ stack, Carries program s t ⟨stack, L⟩ code ⟨paramWord program p :: stack, L'⟩ := by
  unfold passRef at h
  rw [← word_of_same hty] at hload
  split_ifs at h with hagg
  · simp only [Gen.bind_ok, Gen.pure_ok, Prod.mk.injEq] at h
    obtain ⟨code', u, hcode, ⟨rfl, rfl⟩, rfl⟩ := h
    obtain ⟨hR', hcode⟩ := hload _ _ _ _ hcode hR
    have hword : paramWord program p = Word.ofTy program p.ty := by
      simp [paramWord, ParamDesc.ofPassing, Passing.inCell, hagg, Desc.ofParam]
    exact ⟨L, hR', fun _ _ h => h, trivial, fun stack => hword ▸ hcode stack⟩
  have hword : paramWord program p = .ref (.array (.ofTy program p.ty)) := by
    simp [paramWord, ParamDesc.ofPassing, Passing.inCell, hagg, href, Desc.ofParam, Desc.word]
  cases hown : ownCell? place with
  | some n =>
    simp only [hown, Gen.pure_ok, Prod.mk.injEq] at h
    obtain ⟨⟨rfl, rfl⟩, rfl⟩ := h
    obtain ⟨name, ty, rfl⟩ := eq_root_of_ownCell hown
    refine ⟨L, hR, fun _ _ h => h, trivial, fun stack => ?_⟩
    rw [hword, desc_of_same hty]
    exact load_carries hR (hR.vars hplace) rfl
  | none =>
    simp only [hown, Gen.bind_ok, Gen.pure_ok, Prod.mk.injEq, Prod.exists] at h
    obtain ⟨code', n, u, hcode, ⟨rfl, rfl⟩, rfl⟩ := h
    obtain ⟨rfl, hR', hcode⟩ := intoCell_carries hload hcode hR
    refine ⟨_, hR', hR.push_keeps _, ?_, fun stack => hword ▸ hcode stack⟩
    simp [CellsHold, desc_of_same hty]

lemma outOfCell_carries {cell : Nat} {place : Place} {codeAddress : List Instr} {u : Supply}
    {stack : List Word} (hplace : place.WellTyped Γ)
    (hcell : L cell = some (.ref (.array (.ofTy program place.ty)))) (hR : Ready Γ program u L)
    (haddress : Carries program s u ⟨stack, L⟩ codeAddress
      ⟨addressWords program place ++ stack, L⟩) :
    Carries program s u ⟨stack, L⟩ (outOfCell cell place.ty place codeAddress) ⟨stack, L⟩ :=
  (haddress.append (cellContent_carries hR hcell)).append (store_carries hplace hR)

/-- A call takes its arguments and leaves the result, if there is one. -/
lemma invokeStatic_carries (callee : Signature) (stack : List Word) :
    Carries program s s ⟨(callee.params.map (paramWord program)).reverse ++ stack, L⟩
      [.invokeStatic (.ofSignature callee)]
      ⟨(callee.result.map (Word.ofTy program)).toList ++ stack, L⟩ := by
  refine stack_carries (by simp [Straight, Instr.straight]) ?_
  set ds := (callee.params.map .ofPassing).map (Desc.ofParam program) with hds
  have hwords : (callee.params.map (paramWord program)).reverse = ds.reverse.map Desc.word := by
    simp [hds, paramWord, Function.comp_def]
  have htake : takeAll (ds.reverse ++ []) (ds.reverse.map Desc.word ++ stack) = some stack :=
    takeAll_append
  rw [List.append_nil] at htake
  rw [stackAfter_cons, hwords]
  simp only [Instr.onStack, Instr.host?, MethodRef.ofSignature, HostOp.run_singleton, HostOp.check,
    ← hds, htake]
  cases callee.result <;> rfl

/-- The code of a call. The cells are forgotten after it. -/
lemma invocation_pushes {callee : Signature} {args : List Arg} {count : Nat}
    {push : Gen (List Instr × List (Option Nat))} {back : List (Option Nat) → Gen (List Instr)}
    (hpush : ∀ s code cells t L, push s = .ok ((code, cells), t) → Ready Γ program s L →
      ∃ L', Ready Γ program t L' ∧ (∀ n w, L n = some w → L' n = some w) ∧
        CellsHold program L' cells args ∧ ∀ stack, Carries program s t ⟨stack, L⟩ code
          ⟨(callee.params.map (paramWord program)).reverse ++ stack, L'⟩)
    (hback : ∀ cells s code t L, back cells s = .ok (code, t) → Ready Γ program s L →
      CellsHold program L cells args →
      Ready Γ program t L ∧ ∀ stack, Carries program s t ⟨stack, L⟩ code ⟨stack, L⟩) :
    Pushes Γ program (invocation callee count push back)
      (callee.result.map (Word.ofTy program)).toList := by
  intro s code t L h hR
  unfold invocation at h
  split_ifs at h
  · simp [Gen.bind_ok, Gen.throw_ok] at h
  · simp only [Gen.bind_ok, Gen.pure_ok, Gen.releasing_ok, Prod.exists] at h
    obtain ⟨u, ⟨codeArgs, cells, v, hargs, codeBack, w, hcode, rfl, rfl⟩, hl, hs, hp⟩ := h
    obtain ⟨L', hR', hmono, hcells, hargs⟩ := hpush _ _ _ _ _ hargs hR
    obtain ⟨hR'', hcode⟩ := hback _ _ _ _ _ hcode hR' hcells
    have hall (stack : List Word) := ((hargs stack).append (invokeStatic_carries callee stack)).append
      (hcode _)
    have hpeak := (hall []).peak_le
    refine ⟨hR.next hs (by omega), fun stack => ?_⟩
    have hforget : Carries program s w ⟨stack, L⟩ _
        ⟨(callee.result.map (Word.ofTy program)).toList ++ stack, L⟩ :=
      (hall stack).weaken ⟨rfl, hmono⟩
    exact hforget.release hl hp

end Calls

section Expressions

variable {Γ : Variables} {program : String} {ws vs : List Word} {x : Gen (List Instr)}
  {code : List Instr}

lemma pushes_pure (hs : Straight code)
    (h : ∀ stack, stackAfter program code stack = some (ws ++ stack)) :
    Pushes Γ program (return code) ws := by
  intro s code' t L hcode hR
  simp only [Gen.pure_ok] at hcode
  obtain ⟨rfl, rfl⟩ := hcode
  exact ⟨hR, fun stack => stack_carries hs (h stack)⟩

/-- More code that works on the stack alone. -/
lemma Pushes.snoc (hx : Pushes Γ program x ws) (hs : Straight code)
    (h : ∀ stack, stackAfter program code (ws ++ stack) = some (vs ++ stack)) :
    Pushes Γ program (do return (← x) ++ code) vs := by
  intro s code' t L hcode hR
  simp only [Gen.bind_ok, Gen.pure_ok] at hcode
  obtain ⟨code', u, hcode, rfl, rfl⟩ := hcode
  obtain ⟨hR', hcode⟩ := hx _ _ _ _ hcode hR
  exact ⟨hR', fun stack => (hcode stack).append (stack_carries hs (h stack))⟩

/-- An array and an index into it. -/
lemma indexed_carries {w : Word} {index : Gen (List Instr)} (hx : Pushes Γ program x [w])
    {ty : Ty} (hindex : Pushes Γ program index [Word.ofTy program ty]) (hty : ty.isOrdinal = true)
    (low : Int32) {s u t : Supply}
    {codeBase codeIndex : List Instr} {L : Nat → Option Word} (hB : x s = .ok (codeBase, u))
    (hI : index u = .ok (codeIndex, t)) (hR : Ready Γ program s L) :
    Ready Γ program t L ∧ ∀ stack, Carries program s t ⟨stack, L⟩
      (codeBase ++ codeIndex ++ rebase low) ⟨.int :: w :: stack, L⟩ := by
  rw [word_of_isOrdinal hty] at hindex
  obtain ⟨hR', hB⟩ := hx _ _ _ _ hB hR
  obtain ⟨hR'', hI⟩ := hindex _ _ _ _ hI hR'
  exact ⟨hR'', fun stack => ((hB stack).append (hI _)).append (rebase_carries low)⟩

mutual

/-- The code of an expression leaves a value of its type. -/
theorem expr_pushes : {e : Expr} → (h : e.WellTyped Γ) →
    Pushes Γ program (expr e) [Word.ofTy program e.ty]
  | .int ty i, h => by
    rw [expr, Expr.ty, word_of_isOrdinal h]
    exact pushes_pure (by simp [Straight, Instr.straight]) fun _ => rfl
  | .real ty x, h => by
    obtain rfl : ty = .real := h
    rw [expr]
    exact pushes_pure (by simp [Straight, Instr.straight]) fun _ => rfl
  | .text ty x, h => by
    obtain rfl : ty = .string := h
    rw [expr]
    exact pushes_pure (by simp [Straight, Instr.straight]) fun _ => rfl
  | .read ty place placeTy, ⟨hplace, hty, hretypes⟩ => by
    subst hty
    rw [expr, Expr.ty, word_of_retypes hretypes]
    exact loadVia_pushes hplace fun hpart => path_pushes hplace (.inr hpart)
  | .call ty callee args, ⟨⟨r, hresult, hretypes⟩, hargs⟩ => by
    rw [expr, Expr.ty, word_of_retypes hretypes]
    have hcall : Pushes Γ program (invocation callee args.length (pushArgs callee.params args)
        fun cells => copyBack cells args) (callee.result.map (Word.ofTy program)).toList :=
      invocation_pushes (fun _ _ _ _ _ => pushArgs_carries hargs) fun _ _ _ _ _ =>
        copyBack_carries hargs
    rwa [hresult] at hcall
  | .unary ty .neg x, ⟨hx, hnum, hretypes⟩ => by
    rw [expr, Expr.ty, word_of_retypes hretypes]
    refine (expr_pushes hx).snoc (by simp [Straight, Instr.straight]) fun stack => ?_
    rcases Ty.isNumeric_iff.mp hnum with hty | hty <;> rw [hty] <;> rfl
  | .unary ty .not x, ⟨hx, hbool, hretypes⟩ => by
    rw [expr, Expr.ty, word_of_retypes hretypes]
    refine (expr_pushes hx).snoc (by simp [Straight, Instr.straight]) fun stack => ?_
    rw [hbool]
    rfl
  | .binary ty op a b, ⟨ha, hb, r, hr, hretypes⟩ => by
    have hoperands := Check.operands_of_binaryTy hr
    rw [expr, Expr.ty]
    cases hop : relation? op with
    | some rel =>
      obtain ⟨hcomp, rfl⟩ := hoperands.of_relation hop
      rw [word_of_retypes hretypes]
      exact relation_pushes (expr_pushes ha) (expr_pushes hb) hcomp
    | none => exact arithmetic_pushes (expr_pushes ha) (expr_pushes hb) hoperands hop hretypes

/-- Walking along a path leaves the content of the place. -/
theorem path_pushes : {p : Place} → (h : p.WellTyped Γ) →
    (hobject : p.ty.isAggregate = true ∨ ∀ v, p ≠ .root v) →
    Pushes Γ program (path p) [Word.ofTy program p.ty]
  | .root v, h, hobject => by
    rw [path]
    exact loadObject_pushes h (hobject.resolve_right fun hpart => hpart v rfl)
  | .field base record name ty, ⟨hbase, fields, hty, _⟩, _ => by
    rw [path]
    refine (path_pushes hbase (.inl (by rw [hty]; rfl))).snoc (by simp [Straight, Instr.straight])
      fun stack => ?_
    simp [word_of_record hty, Instr.onStack, Instr.host?, Instr.plain, FieldRef.member,
      Listing.ownerClass]
  | .element base index low elem, ⟨hbase, hindex, hord, len, hty⟩, _ => by
    intro s code t L hcode hR
    simp only [path, Gen.bind_ok, Gen.pure_ok] at hcode
    obtain ⟨codeBase, u, hB, codeIndex, v, hI, rfl, rfl⟩ := hcode
    obtain ⟨hR', hall⟩ := indexed_carries (path_pushes hbase (.inl (by rw [hty]; rfl)))
      (expr_pushes hindex) hord low hB hI hR
    refine ⟨hR', fun stack => (hall stack).append (stack_carries ?_ ?_)⟩
    · simp [Straight, Instr.straight]
    · simp [word_of_array hty, Instr.onStack, Instr.host?, Instr.plain]

theorem address_pushes : {p : Place} → (h : p.WellTyped Γ) →
    Pushes Γ program (address p) (addressWords program p)
  | .root v, h => by
    intro s code t L hcode hR
    simp only [address, Gen.pure_ok] at hcode
    obtain ⟨rfl, rfl⟩ := hcode
    exact ⟨hR, fun stack => symbolAddress_carries h hR⟩
  | .field base record name ty, ⟨hbase, fields, hty, _⟩ => by
    rw [address]
    exact path_pushes hbase (.inl (by rw [hty]; rfl))
  | .element base index low elem, ⟨hbase, hindex, hord, len, hty⟩ => by
    intro s code t L hcode hR
    simp only [address, Gen.bind_ok, Gen.pure_ok] at hcode
    obtain ⟨codeBase, u, hB, codeIndex, v, hI, rfl, rfl⟩ := hcode
    exact indexed_carries (path_pushes hbase (.inl (by rw [hty]; rfl))) (expr_pushes hindex) hord
      low hB hI hR

theorem pushArgs_carries : {params : List Passing} → {args : List Arg} →
    (h : ArgsWellTyped Γ params args) → {s t : Supply} → {code : List Instr} →
    {cells : List (Option Nat)} → {L : Nat → Option Word} →
    (hcode : pushArgs params args s = .ok ((code, cells), t)) → (hR : Ready Γ program s L) →
    ∃ L', Ready Γ program t L' ∧ (∀ n w, L n = some w → L' n = some w) ∧
      CellsHold program L' cells args ∧ ∀ stack, Carries program s t ⟨stack, L⟩ code
        ⟨(params.map (paramWord program)).reverse ++ stack, L'⟩
  | [], [], _, s, t, code, cells, L, hcode, hR => by
    simp only [pushArgs, Gen.pure_ok, Prod.mk.injEq] at hcode
    obtain ⟨⟨rfl, rfl⟩, rfl⟩ := hcode
    exact ⟨L, hR, fun _ _ h => h, trivial, fun stack => stack_carries (by simp [Straight]) rfl⟩
  | p :: params, .value e :: args, ⟨hval, he, haccepts, hargs⟩, s, t, code, cells, L, hcode, hR => by
    simp only [pushArgs, Gen.bind_ok, Gen.pure_ok, Prod.mk.injEq, Prod.exists] at hcode
    obtain ⟨codeE, u, hE, rest, cells', v, hrest, ⟨rfl, rfl⟩, rfl⟩ := hcode
    obtain ⟨hR', hE⟩ := expr_pushes he _ _ _ _ hE hR
    obtain ⟨L', hR'', hmono, hcells, hrest⟩ := pushArgs_carries hargs hrest hR'
    have hword : paramWord program p = Word.ofTy program p.ty := by
      simp [paramWord, ParamDesc.ofPassing, Passing.inCell, hval, Desc.ofParam]
    refine ⟨L', hR'', hmono, hcells, fun stack => ?_⟩
    have hall := ((hE stack).append (widen_carries haccepts)).append (hrest _)
    simpa [hword] using hall
  | p :: params, .ref place ty :: args, ⟨href, hplace, hty, hsame, hargs⟩, s, t, code, cells, L,
      hcode, hR => by
    subst hty
    simp only [pushArgs, Gen.bind_ok, Gen.pure_ok, Prod.mk.injEq, Prod.exists] at hcode
    obtain ⟨codeP, cell, u, hP, rest, cells', v, hrest, ⟨rfl, rfl⟩, rfl⟩ := hcode
    have hload : Pushes Γ program (loadVia (path place) place.ty place) [Word.ofTy program place.ty] :=
      loadVia_pushes hplace fun hpart => path_pushes hplace (.inr hpart)
    obtain ⟨L', hR', hmono, hcell, hP⟩ := passRef_carries hplace hsame hload href hP hR
    obtain ⟨L'', hR'', hmono', hcells, hrest⟩ := pushArgs_carries hargs hrest hR'
    refine ⟨L'', hR'', fun n w hw => hmono' n w (hmono n w hw), ?_, fun stack => ?_⟩
    · cases cell with
      | none => exact hcells
      | some n => exact ⟨hmono' _ _ hcell.1, hcells⟩
    · simpa using (hP stack).append (hrest _)

theorem copyBack_carries : {params : List Passing} → {args : List Arg} →
    (h : ArgsWellTyped Γ params args) → {cells : List (Option Nat)} → {s t : Supply} →
    {code : List Instr} → {L : Nat → Option Word} →
    (hcode : copyBack cells args s = .ok (code, t)) → (hR : Ready Γ program s L) →
    (hcells : CellsHold program L cells args) →
    Ready Γ program t L ∧ ∀ stack, Carries program s t ⟨stack, L⟩ code ⟨stack, L⟩
  | [], [], _, [], s, t, code, L, hcode, hR, _ => by
    simp only [copyBack, Gen.pure_ok] at hcode
    obtain ⟨rfl, rfl⟩ := hcode
    exact ⟨hR, fun stack => stack_carries (by simp [Straight]) rfl⟩
  | p :: params, .value e :: args, ⟨_, _, _, hargs⟩, none :: cells, s, t, code, L, hcode, hR,
      hcells => by
    rw [copyBack] at hcode
    · exact copyBack_carries hargs hcode hR hcells
    · simp
  | p :: params, .ref place ty :: args, ⟨_, _, _, _, hargs⟩, none :: cells, s, t, code, L, hcode, hR,
      hcells => by
    rw [copyBack] at hcode
    · exact copyBack_carries hargs hcode hR hcells
    · simp
  | p :: params, .ref place ty :: args, ⟨_, hplace, hty, _, hargs⟩, some cell :: cells, s, t, code,
      L, hcode, hR, hcells => by
    subst hty
    simp only [copyBack, Gen.bind_ok, Gen.pure_ok] at hcode
    obtain ⟨codeA, u, hA, rest, v, hrest, rfl, rfl⟩ := hcode
    obtain ⟨hR', hA⟩ := address_pushes hplace _ _ _ _ hA hR
    obtain ⟨hR'', hrest⟩ := copyBack_carries hargs hrest hR' hcells.2
    exact ⟨hR'', fun stack =>
      (outOfCell_carries hplace hcells.1 hR' (hA stack)).append (hrest stack)⟩

end

end Expressions

end PascalJvm.Emit
