import Mathlib.Logic.Relation
import Mathlib.Tactic
import PascalJvm.Jvm.Assembler

/-!
# Control flow of a method body

The positions of a method body are the nodes of a graph. Control goes on to the next position
unless the instruction ends the flow, and to the place of every label that the instruction
names. The position after the last instruction is a node as well: a body that can fall off its
end reaches it. A `DepthMap` gives every position a depth of the operand stack on which all
edges that control can take agree.
-/
namespace PascalJvm.Jvm

/-- The instruction that an operation hands over. -/
def Op.instr? : Op → Option Instr
  | .emit i => some i
  | _ => none

/-- The instructions of a run, in order. -/
def emitted (ops : List Op) : List Instr := ops.filterMap Op.instr?

/-- The labels that a code binds, in order. -/
def boundLabels (code : List Instr) : List Label := code.filterMap Instr.bound?

/-- The labels that a code jumps to. -/
def jumpedLabels (code : List Instr) : List Label := code.flatMap Instr.targets

@[simp] theorem emitted_nil : emitted [] = [] := rfl

@[simp] theorem emitted_cons_emit (ins : Instr) (ops : List Op) :
    emitted (.emit ins :: ops) = ins :: emitted ops := rfl

@[simp] theorem emitted_cons_enter (kind : String) (ops : List Op) :
    emitted (.enter kind :: ops) = emitted ops := rfl

@[simp] theorem emitted_cons_newLabel (ops : List Op) :
    emitted (.newLabel :: ops) = emitted ops := rfl

@[simp] theorem emitted_append (xs ys : List Op) : emitted (xs ++ ys) = emitted xs ++ emitted ys :=
  List.filterMap_append

@[simp] theorem boundLabels_append (xs ys : List Instr) :
    boundLabels (xs ++ ys) = boundLabels xs ++ boundLabels ys :=
  List.filterMap_append

@[simp] theorem jumpedLabels_append (xs ys : List Instr) :
    jumpedLabels (xs ++ ys) = jumpedLabels xs ++ jumpedLabels ys :=
  List.flatMap_append

@[simp] theorem boundLabels_nil : boundLabels [] = [] := rfl

@[simp] theorem boundLabels_cons (ins : Instr) (code : List Instr) :
    boundLabels (ins :: code) = ins.bound?.toList ++ boundLabels code := by
  cases h : ins.bound? <;> simp [boundLabels, h]

@[simp] theorem jumpedLabels_nil : jumpedLabels [] = [] := rfl

@[simp] theorem jumpedLabels_cons (ins : Instr) (code : List Instr) :
    jumpedLabels (ins :: code) = ins.targets ++ jumpedLabels code := rfl

lemma Instr.eq_label_of_bound {ins : Instr} {l : Label} (h : ins.bound? = some l) :
    ins = .label l := by
  cases ins <;> simp_all [Instr.bound?]

lemma mem_boundLabels {code : List Instr} {l : Label} :
    l ∈ boundLabels code ↔ ∃ p : Nat, code[p]? = some (.label l) := by
  constructor
  · intro h
    obtain ⟨ins, hins, hl⟩ := List.mem_filterMap.mp h
    rw [Instr.eq_label_of_bound hl] at hins
    exact List.mem_iff_getElem?.mp hins
  · rintro ⟨p, hp⟩
    exact List.mem_filterMap.mpr ⟨_, List.mem_of_getElem? hp, rfl⟩

lemma mem_jumpedLabels {code : List Instr} {l : Label} :
    l ∈ jumpedLabels code ↔ ∃ (p : Nat) (ins : Instr), code[p]? = some ins ∧ l ∈ ins.targets := by
  constructor
  · intro h
    obtain ⟨ins, hins, hl⟩ := List.mem_flatMap.mp h
    obtain ⟨p, hp⟩ := List.mem_iff_getElem?.mp hins
    exact ⟨p, ins, hp, hl⟩
  · rintro ⟨p, ins, hp, hl⟩
    exact List.mem_flatMap.mpr ⟨ins, List.mem_of_getElem? hp, hl⟩

/-- A label that a code binds once stands at one place. -/
lemma label_place_unique {code : List Instr} (hn : (boundLabels code).Nodup) {l : Label}
    {p q : Nat} (hp : code[p]? = some (.label l)) (hq : code[q]? = some (.label l)) : p = q := by
  induction code generalizing p q with
  | nil => simp at hp
  | cons x rest ih =>
    rw [← List.singleton_append, boundLabels_append, List.nodup_append] at hn
    obtain ⟨-, hrest, hdis⟩ := hn
    have hfar : ∀ k : Nat, rest[k]? = some (.label l) → x ≠ .label l := by
      rintro k hk rfl
      exact hdis l (by simp [boundLabels, Instr.bound?]) l (mem_boundLabels.mpr ⟨k, hk⟩) rfl
    cases p with
    | zero =>
      cases q with
      | zero => rfl
      | succ q =>
        simp only [List.getElem?_cons_zero, Option.some.injEq] at hp
        exact absurd hp (hfar q (by simpa using hq))
    | succ p =>
      cases q with
      | zero =>
        simp only [List.getElem?_cons_zero, Option.some.injEq] at hq
        exact absurd hq (hfar p (by simpa using hp))
      | succ q =>
        have he : p = q := ih hrest (by simpa using hp) (by simpa using hq)
        rw [he]

/-- Control goes on to the next instruction, and comes from the one before. -/
def Instr.straight : Instr → Bool
  | .label _ | .goto _ | .ifZero .. | .ifCompare .. | .lookupSwitch .. | .ret _ => false
  | _ => true

/-- Code without labels and jumps. -/
def Straight (code : List Instr) : Prop := ∀ ins ∈ code, ins.straight = true

lemma Instr.ne_label_of_straight {ins : Instr} (h : ins.straight = true) (l : Label) :
    ins ≠ .label l := by
  rintro rfl
  cases h

lemma Instr.targets_of_straight {ins : Instr} (h : ins.straight = true) : ins.targets = [] := by
  cases ins <;> simp_all [Instr.straight, Instr.targets]

lemma Instr.endsFlow_of_straight {ins : Instr} (h : ins.straight = true) :
    ins.endsFlow = false := by
  cases ins <;> simp_all [Instr.straight, Instr.endsFlow]

lemma Instr.bound_of_straight {ins : Instr} (h : ins.straight = true) : ins.bound? = none := by
  cases ins <;> simp_all [Instr.straight, Instr.bound?]

lemma Straight.append {xs ys : List Instr} (hx : Straight xs) (hy : Straight ys) :
    Straight (xs ++ ys) := by
  intro ins hins
  exact (List.mem_append.mp hins).elim (hx ins) (hy ins)

@[simp] theorem boundLabels_of_straight {code : List Instr} (h : Straight code) :
    boundLabels code = [] := by
  rw [boundLabels, List.filterMap_eq_nil_iff]
  exact fun ins hins => Instr.bound_of_straight (h ins hins)

@[simp] theorem jumpedLabels_of_straight {code : List Instr} (h : Straight code) :
    jumpedLabels code = [] := by
  rw [jumpedLabels, List.flatMap_eq_nil_iff]
  exact fun ins hins => Instr.targets_of_straight (h ins hins)

/-- Control may go from position `i` to position `j`. -/
inductive Edge (code : List Instr) : Nat → Nat → Prop
  | next {i : Nat} {ins : Instr} (hi : code[i]? = some ins) (hf : ins.endsFlow = false) :
      Edge code i (i + 1)
  | jump {i j : Nat} {ins : Instr} {l : Label} (hi : code[i]? = some ins) (hl : l ∈ ins.targets)
      (hj : code[j]? = some (.label l)) : Edge code i j

lemma Edge.source {code : List Instr} {i j : Nat} (h : Edge code i j) :
    ∃ ins, code[i]? = some ins := by
  cases h with
  | next hi _ => exact ⟨_, hi⟩
  | jump hi _ _ => exact ⟨_, hi⟩

/-- Control can come to position `i` from the entry. -/
def Reachable (code : List Instr) (i : Nat) : Prop := Relation.ReflTransGen (Edge code) 0 i

lemma Reachable.entry (code : List Instr) : Reachable code 0 := .refl

lemma Reachable.step {code : List Instr} {i j : Nat} (h : Reachable code i) (he : Edge code i j) :
    Reachable code j := .tail h he

/-- The depth after an instruction that starts at depth `d`. -/
def Instr.after (ins : Instr) (d : Nat) : Nat := d - ins.effect.pops + ins.effect.pushes

/-- The greatest depth while an instruction works that starts at depth `d`. -/
def Instr.reach (ins : Instr) (d : Nat) : Nat := ins.after d + ins.effect.scratch

@[simp] theorem Instr.after_label (l : Label) (d : Nat) : (Instr.label l).after d = d := by
  simp [Instr.after, Instr.effect]

@[simp] theorem Instr.reach_label (l : Label) (d : Nat) : (Instr.label l).reach d = d := by
  simp [Instr.reach, Instr.effect]

lemma Instr.after_le_reach (ins : Instr) (d : Nat) : ins.after d ≤ ins.reach d :=
  Nat.le_add_right _ _

/-- A depth for every position: zero at the entry, enough for what the instruction there
takes, and the same along every way that control can take to a position. -/
structure DepthMap (code : List Instr) (depth : Nat → Nat) : Prop where
  entry : depth 0 = 0
  enough {i : Nat} {ins : Instr} (hr : Reachable code i) (hi : code[i]? = some ins) :
    ins.effect.pops ≤ depth i
  agree {i j : Nat} {ins : Instr} (hr : Reachable code i) (hi : code[i]? = some ins)
    (he : Edge code i j) : depth j = ins.after (depth i)

end PascalJvm.Jvm
