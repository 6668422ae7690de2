import PascalJvm.Proofs.ControlFlow

/-!
# The depth check of the assembler

The assembler sees every instruction once and keeps one depth, one flag and the depths of the
labels. Here its verdict is compared with the paths of control through the finished body. If it
accepts a run, every label that is jumped to is bound at one place and the depths it kept along
the way are a `DepthMap`, within the greatest depth it reports. On a run without dead code the
converse holds: whenever some `DepthMap` exists the run is accepted, and the greatest depth is
the exact one.

Soundness is carried by `Ledger`, which relates the label table to a depth and a mark for every
position so far. A position is marked when the flag was set there; code after a jump is not
marked until the next label, and no path of control reaches it.
-/
namespace PascalJvm.Jvm

namespace Assembler

/-- The label table after jumps to `ls` from depth `d`. -/
def noted (labels : Array LabelInfo) (d : Nat) (ls : List Label) : Array LabelInfo :=
  ls.foldl (fun t l => t.modify l fun info => { info with depth := some d }) labels

@[simp] theorem noted_nil (labels : Array LabelInfo) (d : Nat) : noted labels d [] = labels := rfl

theorem getElem?_noted (labels : Array LabelInfo) (d : Nat) (ls : List Label) (l : Label) :
    (noted labels d ls)[l]? =
      if l ∈ ls then labels[l]?.map (fun info => ⟨info.position, some d⟩) else labels[l]? := by
  induction ls generalizing labels with
  | nil => simp
  | cons k ls ih =>
    have hstep : noted labels d (k :: ls) =
        noted (labels.modify k fun info => { info with depth := some d }) d ls := rfl
    rw [hstep, ih, Array.getElem?_modify]
    by_cases hk : k = l
    · subst hk
      cases labels[k]? <;> simp
    · have hl : l ∈ k :: ls ↔ l ∈ ls := by simp [Ne.symm hk]
      simp only [hk, hl, if_false]

@[simp] theorem size_noted (labels : Array LabelInfo) (d : Nat) (ls : List Label) :
    (noted labels d ls).size = labels.size := by
  induction ls generalizing labels with
  | nil => rfl
  | cons k ls ih => exact (ih _).trans (by simp)

/-- An instruction that causes no fault: its operands are there, and the labels it jumps to are
known and stand at no other depth. -/
structure Takes (a : Assembler) (ins : Instr) : Prop where
  enough : ins.effect.pops ≤ a.depth
  known : ∀ l ∈ ins.targets, ∃ info, a.labels[l]? = some info ∧
    ∀ d, info.depth = some d → d = ins.after a.depth

/-- The assembler after an instruction without fault. -/
def taken (a : Assembler) (ins : Instr) : Assembler :=
  { a with
    code := a.code.push ins
    depth := ins.after a.depth
    maxDepth := max a.maxDepth (ins.reach a.depth)
    reachable := a.reachable && !ins.endsFlow
    labels := noted a.labels (ins.after a.depth) ins.targets }

/-- A label that can be bound: it is known, stands nowhere yet, and if control comes from
above, jumps have not fixed another depth. -/
def Binds (a : Assembler) (l : Label) : Prop :=
  ∃ e, a.labels[l]? = some ⟨none, e⟩ ∧ (a.reachable = true → ∀ d, e = some d → d = a.depth)

/-- The depth at a label that is bound now. -/
def depthAt (a : Assembler) (l : Label) : Nat :=
  if a.reachable then a.depth else ((a.labels[l]?.bind LabelInfo.depth).getD a.depth)

/-- The assembler after a label without fault. -/
def bound (a : Assembler) (l : Label) : Assembler :=
  { a with
    code := a.code.push (.label l)
    depth := a.depthAt l
    reachable := true
    labels := a.labels.setIfInBounds l ⟨some a.code.size, some (a.depthAt l)⟩ }

/-- What the table says of a label after an instruction, from what it said before. -/
lemma labels_taken {a : Assembler} {ins : Instr} {l : Label} {info : LabelInfo}
    (h : (a.taken ins).labels[l]? = some info) :
    ∃ old, a.labels[l]? = some old ∧ info.position = old.position ∧
      ((l ∈ ins.targets ∧ info.depth = some (ins.after a.depth)) ∨
        (l ∉ ins.targets ∧ info.depth = old.depth)) := by
  simp only [taken, getElem?_noted] at h
  split at h
  next hmem =>
    obtain ⟨old, hold, rfl⟩ := Option.map_eq_some_iff.mp h
    exact ⟨old, hold, rfl, .inl ⟨hmem, rfl⟩⟩
  next hmem => exact ⟨info, h, rfl, .inr ⟨hmem, rfl⟩⟩

/-- The jumps of an instruction without fault overwrite no depth with another one. -/
lemma Takes.labels_taken {a : Assembler} {ins : Instr} (h : a.Takes ins) {l : Label}
    {info : LabelInfo} {d : Nat} (hinfo : a.labels[l]? = some info) (hd : info.depth = some d) :
    (a.taken ins).labels[l]? = some info := by
  simp only [taken, getElem?_noted, hinfo]
  split
  next hmem =>
    obtain ⟨info', hinfo', hsame⟩ := h.known l hmem
    rw [hinfo, Option.some.injEq] at hinfo'
    subst hinfo'
    obtain ⟨position, _⟩ := info
    simp only [Option.map_some, Option.some.injEq, LabelInfo.mk.injEq, true_and]
    rw [← hsame d hd]
    exact hd.symm
  next => rfl

lemma labels_bound_self {a : Assembler} {l : Label} (hl : l < a.labels.size) :
    (a.bound l).labels[l]? = some ⟨some a.code.size, some (a.depthAt l)⟩ :=
  Array.getElem?_setIfInBounds_self_of_lt hl

lemma labels_bound_of_ne (a : Assembler) {k l : Label} (hk : k ≠ l) :
    (a.bound l).labels[k]? = a.labels[k]? :=
  Array.getElem?_setIfInBounds_ne (Ne.symm hk)

/-- A label is bound at the depth that the jumps to it have noted. -/
lemma Binds.depthAt_eq {a : Assembler} {l : Label} (h : a.Binds l) {info : LabelInfo} {d : Nat}
    (hinfo : a.labels[l]? = some info) (hd : info.depth = some d) : a.depthAt l = d := by
  obtain ⟨e, he, hsame⟩ := h
  rw [hinfo, Option.some.injEq] at he
  subst he
  by_cases hr : a.reachable = true
  · rw [depthAt, if_pos hr]
    exact (hsame hr d hd).symm
  · rw [depthAt, if_neg hr, hinfo, Option.bind_some, hd, Option.getD_some]

lemma fail_fault (a : Assembler) (e : AssemblyError) : (a.fail e).fault ≠ none := by
  unfold fail
  split <;> simp_all

lemma jump_of_known {a : Assembler} {l : Label} {info : LabelInfo} (hl : a.labels[l]? = some info)
    (hd : ∀ d, info.depth = some d → d = a.depth) :
    a.jump l = { a with labels := noted a.labels a.depth [l] } := by
  -- the table changes only where no depth was noted before
  have hsame : ∀ t : Array LabelInfo, (∀ k : Nat, t[k]? = (noted a.labels a.depth [l])[k]?) →
      ({ a with labels := t } : Assembler) = { a with labels := noted a.labels a.depth [l] } :=
    fun t ht => by rw [Array.ext_getElem? ht]
  obtain ⟨position, depth⟩ := info
  unfold jump
  rw [hl]
  cases depth with
  | none =>
    apply hsame
    intro k
    rw [getElem?_noted, Array.getElem?_setIfInBounds]
    have hlt : l < a.labels.size := (Array.getElem?_eq_some_iff.mp hl).1
    by_cases hk : l = k
    · subst hk
      rw [if_pos rfl, if_pos hlt, if_pos (List.mem_singleton_self l), hl]
      rfl
    · simp [hk, Ne.symm hk]
  | some d =>
    have he : d = a.depth := hd d rfl
    simp only [he, if_true]
    apply hsame a.labels
    intro k
    rw [getElem?_noted]
    by_cases hk : k = l
    · subst hk
      simp [hl, he]
    · simp [hk]

lemma jump_fault {a : Assembler} {l : Label} (h : (a.jump l).fault = none) :
    a.fault = none ∧ ∃ info, a.labels[l]? = some info ∧ ∀ d, info.depth = some d → d = a.depth := by
  unfold jump at h
  split at h
  next => exact absurd h (fail_fault _ _)
  next info hinfo =>
    split at h
    next d hd =>
      split at h
      next he =>
        refine ⟨h, info, hinfo, ?_⟩
        intro x hx
        rw [hd, Option.some.injEq] at hx
        omega
      next => exact absurd h (fail_fault _ _)
    next hd =>
      refine ⟨h, info, hinfo, ?_⟩
      intro x hx
      rw [hd] at hx
      contradiction

lemma jumps_of_known {a : Assembler} {ls : List Label}
    (h : ∀ l ∈ ls, ∃ info, a.labels[l]? = some info ∧ ∀ d, info.depth = some d → d = a.depth) :
    ls.foldl jump a = { a with labels := noted a.labels a.depth ls } := by
  induction ls generalizing a with
  | nil => rfl
  | cons k ls ih =>
    obtain ⟨info, hinfo, hd⟩ := h k (by simp)
    rw [List.foldl_cons, jump_of_known hinfo hd, ih]
    · rfl
    · intro l hl
      obtain ⟨info', hinfo', hd'⟩ := h l (by simp [hl])
      simp only [getElem?_noted, hinfo']
      by_cases hk : l ∈ [k]
      · exact ⟨⟨info'.position, some a.depth⟩, by rw [if_pos hk]; rfl, by simp⟩
      · exact ⟨info', if_neg hk, hd'⟩

lemma jumps_fault {a : Assembler} {ls : List Label} (h : (ls.foldl jump a).fault = none) :
    a.fault = none ∧
      ∀ l ∈ ls, ∃ info, a.labels[l]? = some info ∧ ∀ d, info.depth = some d → d = a.depth := by
  induction ls generalizing a with
  | nil => exact ⟨h, by simp⟩
  | cons k ls ih =>
    rw [List.foldl_cons] at h
    obtain ⟨hjump, hrest⟩ := ih h
    obtain ⟨hfault, info, hinfo, hd⟩ := jump_fault hjump
    refine ⟨hfault, ?_⟩
    intro l hl
    by_cases hk : l = k
    · subst hk
      exact ⟨info, hinfo, hd⟩
    · obtain ⟨info', hinfo', hd'⟩ := hrest l (by simpa [hk] using hl)
      rw [jump_of_known hinfo hd] at hinfo' hd'
      simp only [getElem?_noted, List.mem_singleton, hk, if_false] at hinfo'
      exact ⟨info', hinfo', hd'⟩

lemma account_of_enough {a : Assembler} {e : Effect} (h : e.pops ≤ a.depth) :
    a.account e = { a with
      depth := a.depth - e.pops + e.pushes
      maxDepth := max a.maxDepth (a.depth - e.pops + e.pushes + e.scratch) } := by
  have hlt : ¬ a.depth < e.pops := by omega
  simp only [account, pop, hlt, if_false, push]
  congr 1
  omega

lemma account_fault {a : Assembler} {e : Effect} (h : (a.account e).fault = none) :
    a.fault = none ∧ e.pops ≤ a.depth := by
  by_cases hlt : a.depth < e.pops
  · simp only [account, pop, hlt, if_true, push] at h
    exact absurd h (fail_fault _ _)
  · simp only [account, pop, hlt, if_false, push] at h
    exact ⟨h, by omega⟩

lemma emit_eq (a : Assembler) {ins : Instr} (hl : ∀ l, ins ≠ .label l) :
    a.emit ins =
      { ins.targets.foldl jump (a.account ins.effect) with
        reachable := (ins.targets.foldl jump (a.account ins.effect)).reachable && !ins.endsFlow
        code := (ins.targets.foldl jump (a.account ins.effect)).code.push ins } := by
  cases ins <;> first | rfl | exact absurd rfl (hl _)

theorem emit_of_takes {a : Assembler} {ins : Instr} (hl : ∀ l, ins ≠ .label l)
    (h : a.Takes ins) : a.emit ins = a.taken ins := by
  rw [emit_eq a hl, account_of_enough h.enough, jumps_of_known h.known]
  rfl

theorem takes_of_emit {a : Assembler} {ins : Instr} (hl : ∀ l, ins ≠ .label l)
    (h : (a.emit ins).fault = none) : a.fault = none ∧ a.Takes ins := by
  rw [emit_eq a hl] at h
  obtain ⟨haccount, hknown⟩ := jumps_fault h
  obtain ⟨hfault, henough⟩ := account_fault haccount
  rw [account_of_enough henough] at hknown
  exact ⟨hfault, henough, hknown⟩

theorem bind_of_binds {a : Assembler} {l : Label} (h : a.Binds l) : a.bind l = a.bound l := by
  obtain ⟨e, hl, hd⟩ := h
  unfold bind
  rw [hl]
  cases hr : a.reachable with
  | false => cases e <;> simp [meet, place, bound, depthAt, hr, hl]
  | true =>
    cases e with
    | none => simp [meet, place, bound, depthAt, hr]
    | some d =>
      have he : d = a.depth := hd hr d rfl
      simp [meet, place, bound, depthAt, hr, he]

theorem binds_of_bind {a : Assembler} {l : Label} (h : (a.bind l).fault = none) :
    a.fault = none ∧ a.Binds l := by
  unfold bind at h
  split at h
  next => exact absurd h (fail_fault _ _)
  next => exact absurd h (fail_fault _ _)
  next e hl =>
    have hmeet : (a.meet l e).fault = none := h
    unfold meet at hmeet
    split at hmeet
    next => exact ⟨hmeet, none, hl, by simp⟩
    next d =>
      split at hmeet
      next hr => exact ⟨hmeet, some d, hl, by simp_all⟩
      next hr =>
        split at hmeet
        next he => exact ⟨hmeet, some d, hl, by simp [he]⟩
        next => exact absurd hmeet (fail_fault _ _)

/-- A fault is never forgotten. -/
lemma fault_of_step {a : Assembler} {op : Op} (h : (a.step op).fault = none) : a.fault = none := by
  cases op with
  | newLabel => exact h
  | push n => exact h
  | pop n =>
    simp only [step, pop] at h
    split at h
    · exact absurd h (fail_fault _ _)
    · exact h
  | enter kind => exact h
  | emit ins =>
    by_cases hl : ∀ l, ins ≠ .label l
    · exact (takes_of_emit hl h).1
    · obtain ⟨l, rfl⟩ := not_forall_not.mp hl
      exact (binds_of_bind h).1

/-- The books of a run without fault: a depth and a mark for every position up to the current
one. Marked positions are those that control may come to from above. -/
structure Ledger (a : Assembler) (depth : Nat → Nat) (live : Nat → Bool) : Prop where
  depth_zero : depth 0 = 0
  live_zero : live 0 = true
  depth_now : depth a.code.size = a.depth
  live_now : live a.code.size = a.reachable
  enough {i : Nat} {ins : Instr} (hi : a.code[i]? = some ins) : ins.effect.pops ≤ depth i
  room {i : Nat} {ins : Instr} (hi : a.code[i]? = some ins) : ins.reach (depth i) ≤ a.maxDepth
  next {i : Nat} {ins : Instr} (hi : a.code[i]? = some ins) (hm : live i = true)
    (hf : ins.endsFlow = false) : live (i + 1) = true ∧ depth (i + 1) = ins.after (depth i)
  placed {i : Nat} {l : Label} (hi : a.code[i]? = some (.label l)) :
    live i = true ∧ a.labels[l]? = some ⟨some i, some (depth i)⟩
  jumped {i : Nat} {ins : Instr} {l : Label} (hi : a.code[i]? = some ins) (hl : l ∈ ins.targets) :
    ∃ info, a.labels[l]? = some info ∧ info.depth = some (ins.after (depth i))
  position {l : Label} {p : Nat} {x : Option Nat} (hl : a.labels[l]? = some ⟨some p, x⟩) :
    a.code[p]? = some (.label l)
  depth_le : a.depth ≤ a.maxDepth
  label_le {l : Label} {info : LabelInfo} {d : Nat} (hl : a.labels[l]? = some info)
    (hd : info.depth = some d) : d ≤ a.maxDepth

lemma Ledger.start : Ledger start (fun _ => 0) (fun _ => true) := by
  constructor <;> simp [Assembler.start]

lemma getElem?_push_cases {α : Type} {xs : Array α} {x y : α} {i : Nat}
    (h : (xs.push x)[i]? = some y) :
    (i < xs.size ∧ xs[i]? = some y) ∨ (i = xs.size ∧ x = y) := by
  rw [Array.getElem?_push] at h
  split at h
  next hi => exact .inr ⟨hi, Option.some.inj h⟩
  next => exact .inl ⟨(Array.getElem?_eq_some_iff.mp h).1, h⟩

lemma getElem?_push_of_some {α : Type} {xs : Array α} {x y : α} {i : Nat}
    (h : xs[i]? = some y) : (xs.push x)[i]? = some y := by
  have hlt : i < xs.size := (Array.getElem?_eq_some_iff.mp h).1
  rw [Array.getElem?_push, if_neg (Nat.ne_of_lt hlt), h]

lemma Ledger.newLabel {a : Assembler} {depth : Nat → Nat} {live : Nat → Bool}
    (h : Ledger a depth live) : Ledger (a.step .newLabel) depth live := by
  refine { h with placed := ?_, jumped := ?_, position := ?_, label_le := ?_ }
  · intro i l hi
    exact ⟨(h.placed hi).1, getElem?_push_of_some (h.placed hi).2⟩
  · intro i ins l hi hl
    obtain ⟨info, hinfo, hd⟩ := h.jumped hi hl
    exact ⟨info, getElem?_push_of_some hinfo, hd⟩
  · intro l p x hl
    rcases getElem?_push_cases hl with ⟨-, hold⟩ | ⟨-, hnew⟩
    · exact h.position hold
    · cases hnew
  · intro l info d hl hd
    rcases getElem?_push_cases hl with ⟨-, hold⟩ | ⟨-, rfl⟩
    · exact h.label_le hold hd
    · cases hd

/-- An instruction other than a label: the next position follows from the current one. -/
lemma Ledger.taken {a : Assembler} {depth : Nat → Nat} {live : Nat → Bool} {ins : Instr}
    (h : Ledger a depth live) (hl : ∀ l, ins ≠ .label l) (ht : a.Takes ins) :
    Ledger (a.taken ins) (Function.update depth (a.code.size + 1) (ins.after a.depth))
      (Function.update live (a.code.size + 1) (a.reachable && !ins.endsFlow)) := by
  have hold : ∀ {i : Nat} {v : Nat}, i ≤ a.code.size →
      Function.update depth (a.code.size + 1) v i = depth i := by
    intro i v hi
    exact Function.update_of_ne (by omega) _ _
  have hlive : ∀ {i : Nat} {v : Bool}, i ≤ a.code.size →
      Function.update live (a.code.size + 1) v i = live i := by
    intro i v hi
    exact Function.update_of_ne (by omega) _ _
  constructor
  · rw [hold (Nat.zero_le _)]
    exact h.depth_zero
  · rw [hlive (Nat.zero_le _)]
    exact h.live_zero
  · simp [Assembler.taken]
  · simp [Assembler.taken]
  · intro i x hi
    rcases getElem?_push_cases hi with ⟨hlt, hi⟩ | ⟨rfl, rfl⟩
    · rw [hold hlt.le]
      exact h.enough hi
    · rw [hold le_rfl, h.depth_now]
      exact ht.enough
  · intro i x hi
    rcases getElem?_push_cases hi with ⟨hlt, hi⟩ | ⟨rfl, rfl⟩
    · rw [hold hlt.le]
      exact (h.room hi).trans (le_max_left _ _)
    · rw [hold le_rfl, h.depth_now]
      exact le_max_right _ _
  · intro i x hi hm hf
    rcases getElem?_push_cases hi with ⟨hlt, hi⟩ | ⟨rfl, rfl⟩
    · rw [hlive hlt.le] at hm
      rw [hlive hlt, hold hlt, hold hlt.le]
      exact h.next hi hm hf
    · rw [hlive le_rfl, h.live_now] at hm
      rw [hold le_rfl, h.depth_now]
      simp [hm, hf]
  · intro i l hi
    rcases getElem?_push_cases hi with ⟨hlt, hi⟩ | ⟨rfl, he⟩
    · rw [hlive hlt.le, hold hlt.le]
      exact ⟨(h.placed hi).1, ht.labels_taken (h.placed hi).2 rfl⟩
    · exact absurd he (hl l)
  · intro i x l hi hmem
    rcases getElem?_push_cases hi with ⟨hlt, hi⟩ | ⟨rfl, rfl⟩
    · rw [hold hlt.le]
      obtain ⟨info, hinfo, hd⟩ := h.jumped hi hmem
      exact ⟨info, ht.labels_taken hinfo hd, hd⟩
    · rw [hold le_rfl, h.depth_now]
      obtain ⟨info, hinfo, -⟩ := ht.known l hmem
      refine ⟨⟨info.position, some (ins.after a.depth)⟩, ?_, rfl⟩
      simp only [Assembler.taken, getElem?_noted, if_pos hmem, hinfo, Option.map_some]
  · intro l p x hl'
    obtain ⟨⟨position, y⟩, hold, hpos, -⟩ := Assembler.labels_taken hl'
    cases hpos
    exact getElem?_push_of_some (h.position hold)
  · exact (ins.after_le_reach a.depth).trans (le_max_right _ _)
  · intro l info d hinfo hd
    obtain ⟨old, hold, -, ⟨-, hd'⟩ | ⟨-, hd'⟩⟩ := Assembler.labels_taken hinfo
    · rw [hd', Option.some.injEq] at hd
      rw [← hd]
      exact (ins.after_le_reach a.depth).trans (le_max_right _ _)
    · exact (h.label_le hold (hd' ▸ hd)).trans (le_max_left _ _)

/-- Where control comes from above, a label is bound at the depth of its position. -/
lemma Ledger.depthAt_of_live {a : Assembler} {depth : Nat → Nat} {live : Nat → Bool}
    (h : Ledger a depth live) (l : Label) (hm : live a.code.size = true) :
    a.depthAt l = depth a.code.size := by
  rw [h.live_now] at hm
  rw [h.depth_now, depthAt, if_pos hm]

lemma Ledger.depthAt_le {a : Assembler} {depth : Nat → Nat} {live : Nat → Bool}
    (h : Ledger a depth live) (l : Label) : a.depthAt l ≤ a.maxDepth := by
  unfold depthAt
  split
  next => exact h.depth_le
  next =>
    cases hinfo : a.labels[l]? with
    | none => exact h.depth_le
    | some info =>
      cases hd : info.depth with
      | none => simpa [hd] using h.depth_le
      | some d => simpa [hd] using h.label_le hinfo hd

/-- The entries of `f` before position `n`, and `x` from there on. -/
def upTo {α : Type} (n : Nat) (f : Nat → α) (x : α) : Nat → α := fun i => if i < n then f i else x

section

variable {α : Type} {n i : Nat} {f : Nat → α} {x : α}

lemma upTo_of_lt (hi : i < n) : upTo n f x i = f i := if_pos hi

lemma upTo_of_le (hi : n ≤ i) : upTo n f x i = x := if_neg (Nat.not_lt.mpr hi)

/-- An entry that is replaced by an equal one stays. -/
lemma upTo_of_eq (hi : i ≤ n) (hx : i = n → x = f n) : upTo n f x i = f i := by
  rcases Nat.lt_or_eq_of_le hi with hlt | rfl
  · exact upTo_of_lt hlt
  · rw [upTo_of_le le_rfl, hx rfl]

end

/-- A label: an unmarked position takes over the depth of the jumps to it, which no way from
above contradicts. -/
lemma Ledger.bound {a : Assembler} {depth : Nat → Nat} {live : Nat → Bool} {l : Label}
    (h : Ledger a depth live) (hb : a.Binds l) :
    Ledger (a.bound l) (upTo a.code.size depth (a.depthAt l)) (upTo a.code.size live true) := by
  have ⟨e, hinfo, _⟩ := hb
  have hown : (a.bound l).labels[l]? = some ⟨some a.code.size, some (a.depthAt l)⟩ :=
    labels_bound_self (Array.getElem?_eq_some_iff.mp hinfo).1
  have hsize : (a.bound l).code.size = a.code.size + 1 := by simp [Assembler.bound]
  -- a marked position keeps its entries
  have hkeep : ∀ {i : Nat}, i ≤ a.code.size → live i = true →
      upTo a.code.size live true i = true ∧
        upTo a.code.size depth (a.depthAt l) i = depth i := by
    intro i hi hm
    constructor
    · rw [upTo_of_eq hi (fun he => (he ▸ hm).symm), hm]
    · exact upTo_of_eq hi fun he => h.depthAt_of_live l (he ▸ hm)
  constructor
  · rw [(hkeep (Nat.zero_le _) h.live_zero).2, h.depth_zero]
  · exact (hkeep (Nat.zero_le _) h.live_zero).1
  · rw [hsize, upTo_of_le (Nat.le_succ _)]
    rfl
  · rw [hsize, upTo_of_le (Nat.le_succ _)]
    rfl
  · intro i ins hi
    rcases getElem?_push_cases hi with ⟨hlt, hi⟩ | ⟨rfl, rfl⟩
    · rw [upTo_of_lt hlt]
      exact h.enough hi
    · simp [Instr.effect]
  · intro i ins hi
    rcases getElem?_push_cases hi with ⟨hlt, hi⟩ | ⟨rfl, rfl⟩
    · rw [upTo_of_lt hlt]
      exact h.room hi
    · rw [upTo_of_le le_rfl, Instr.reach_label]
      exact h.depthAt_le l
  · intro i ins hi hm hf
    rcases getElem?_push_cases hi with ⟨hlt, hi⟩ | ⟨rfl, rfl⟩
    · rw [upTo_of_lt hlt] at hm
      obtain ⟨hm', hd'⟩ := h.next hi hm hf
      rw [(hkeep hlt hm').1, (hkeep hlt hm').2, upTo_of_lt hlt]
      exact ⟨rfl, hd'⟩
    · rw [upTo_of_le (Nat.le_succ _), upTo_of_le (Nat.le_succ _), upTo_of_le le_rfl,
        Instr.after_label]
      exact ⟨rfl, rfl⟩
  · intro i k hi
    rcases getElem?_push_cases hi with ⟨hlt, hi⟩ | ⟨rfl, he⟩
    · obtain ⟨hm, hk⟩ := h.placed hi
      have hne : k ≠ l := by
        rintro rfl
        rw [hinfo] at hk
        cases hk
      rw [upTo_of_lt hlt, upTo_of_lt hlt, a.labels_bound_of_ne hne]
      exact ⟨hm, hk⟩
    · cases he
      rw [upTo_of_le le_rfl, upTo_of_le le_rfl]
      exact ⟨rfl, hown⟩
  · intro i ins k hi hk
    rcases getElem?_push_cases hi with ⟨hlt, hi⟩ | ⟨rfl, rfl⟩
    · obtain ⟨info, hinfo', hd⟩ := h.jumped hi hk
      rw [upTo_of_lt hlt]
      by_cases hkl : k = l
      · subst hkl
        exact ⟨_, hown, congrArg some (hb.depthAt_eq hinfo' hd)⟩
      · exact ⟨info, (a.labels_bound_of_ne hkl).trans hinfo', hd⟩
    · simp [Instr.targets] at hk
  · intro k p y hk
    by_cases hkl : k = l
    · subst hkl
      rw [hown] at hk
      cases hk
      simp [Assembler.bound]
    · rw [a.labels_bound_of_ne hkl] at hk
      exact getElem?_push_of_some (h.position hk)
  · exact h.depthAt_le l
  · intro k info d hk hd
    by_cases hkl : k = l
    · subst hkl
      rw [hown, Option.some.injEq] at hk
      subst hk
      rw [← Option.some.inj hd]
      exact h.depthAt_le k
    · rw [a.labels_bound_of_ne hkl] at hk
      exact h.label_le hk hd

end Assembler

/-- The operations that generated code consists of: nothing sets the depth by hand. -/
def Op.builds : Op → Bool
  | .push _ | .pop _ => false
  | _ => true

namespace Assembler

@[simp] theorem run_append (a : Assembler) (xs ys : List Op) :
    a.run (xs ++ ys) = (a.run xs).run ys := List.foldl_append

lemma ledger_of_run {ops : List Op} (hops : ∀ op ∈ ops, op.builds = true)
    (hf : (Assembler.start.run ops).fault = none) :
    (∃ depth live, Ledger (Assembler.start.run ops) depth live) ∧
      (Assembler.start.run ops).code.toList = emitted ops := by
  induction ops using List.reverseRecOn with
  | nil => exact ⟨⟨_, _, Ledger.start⟩, rfl⟩
  | append_singleton ops op ih =>
    have hrun : Assembler.start.run (ops ++ [op]) = (Assembler.start.run ops).step op := by
      rw [run_append]
      rfl
    rw [hrun] at hf ⊢
    obtain ⟨⟨depth, live, hbooks⟩, hcode⟩ :=
      ih (fun x hx => hops x (by simp [hx])) (fault_of_step hf)
    cases op with
    | newLabel =>
      exact ⟨⟨depth, live, hbooks.newLabel⟩, by simpa [step] using hcode⟩
    | push n => simpa [Op.builds] using hops (.push n) (by simp)
    | pop n => simpa [Op.builds] using hops (.pop n) (by simp)
    | enter kind =>
      exact ⟨⟨depth, live, hbooks⟩, by simpa [step] using hcode⟩
    | emit ins =>
      by_cases hl : ∀ l, ins ≠ .label l
      · obtain ⟨-, ht⟩ := takes_of_emit hl hf
        have he : (Assembler.start.run ops).step (.emit ins) =
            (Assembler.start.run ops).taken ins := emit_of_takes hl ht
        rw [he]
        exact ⟨⟨_, _, hbooks.taken hl ht⟩, by simp [Assembler.taken, hcode]⟩
      · obtain ⟨l, rfl⟩ := not_forall_not.mp hl
        obtain ⟨-, hb⟩ := binds_of_bind hf
        have he : (Assembler.start.run ops).step (.emit (.label l)) =
            (Assembler.start.run ops).bound l := bind_of_binds hb
        rw [he]
        exact ⟨⟨_, _, hbooks.bound hb⟩, by simp [Assembler.bound, hcode]⟩

lemma unbound?_eq_none {labels : List LabelInfo} {n : Label} (h : unbound? n labels = none)
    {info : LabelInfo} (hi : info ∈ labels) (hp : info.position = none) : info.depth = none := by
  induction labels generalizing n with
  | nil => simp at hi
  | cons x rest ih =>
    obtain ⟨position, depth⟩ := x
    rcases position with _ | p <;> rcases depth with _ | d
    · simp only [unbound?] at h
      rcases List.mem_cons.mp hi with rfl | hr
      · rfl
      · exact ih h hr
    · simp [unbound?] at h
    all_goals
      simp only [unbound?] at h
      rcases List.mem_cons.mp hi with rfl | hr
      · simp at hp
      · exact ih h hr

section

variable {a : Assembler} {depth : Nat → Nat} {live : Nat → Bool}

lemma Ledger.place_unique (h : Ledger a depth live) {l : Label} {p q : Nat}
    (hp : a.code[p]? = some (.label l)) (hq : a.code[q]? = some (.label l)) : p = q := by
  have he := (h.placed hp).2.symm.trans (h.placed hq).2
  simp only [Option.some.injEq, LabelInfo.mk.injEq] at he
  exact he.1

/-- Where no label is left open, every label that is jumped to has its place. -/
lemma Ledger.place_of_jumped (h : Ledger a depth live) (hopen : unbound? 0 a.labels.toList = none)
    {i : Nat} {ins : Instr} {l : Label} (hi : a.code[i]? = some ins) (hl : l ∈ ins.targets) :
    ∃ p : Nat, a.code[p]? = some (.label l) := by
  obtain ⟨⟨position, d⟩, hinfo, hd⟩ := h.jumped hi hl
  cases position with
  | none =>
    have hmem : (⟨none, d⟩ : LabelInfo) ∈ a.labels.toList := by
      simpa using Array.mem_of_getElem? hinfo
    rw [unbound?_eq_none hopen hmem rfl] at hd
    cases hd
  | some p => exact ⟨p, h.position hinfo⟩

/-- Control keeps to marked positions, and every way to one has the same depth. -/
lemma Ledger.edge (h : Ledger a depth live) {i j : Nat} {ins : Instr} (hm : live i = true)
    (hi : a.code[i]? = some ins) (he : Edge a.code.toList i j) :
    live j = true ∧ depth j = ins.after (depth i) := by
  cases he with
  | next hi' hf =>
    rw [Array.getElem?_toList, hi, Option.some.injEq] at hi'
    subst hi'
    exact h.next hi hm hf
  | jump hi' hl hj =>
    rw [Array.getElem?_toList, hi, Option.some.injEq] at hi'
    subst hi'
    rw [Array.getElem?_toList] at hj
    obtain ⟨hmj, hlj⟩ := h.placed hj
    obtain ⟨info, hinfo, hd⟩ := h.jumped hi hl
    rw [hlj, Option.some.injEq] at hinfo
    subst hinfo
    exact ⟨hmj, Option.some.inj hd⟩

lemma Ledger.live_of_reachable (h : Ledger a depth live) {i : Nat}
    (hr : Reachable a.code.toList i) : live i = true := by
  induction hr with
  | refl => exact h.live_zero
  | tail _ he ih =>
    obtain ⟨ins, hi⟩ := he.source
    exact (h.edge ih (by simpa using hi) he).1

end

/-- What the assembler vouches for when it accepts a run. -/
theorem sound_of_assemble {ops : List Op} {code : Code} (hops : ∀ op ∈ ops, op.builds = true)
    (h : assemble ops = .ok code) :
    code.instrs = emitted ops ∧
    (∀ ins ∈ code.instrs, ∀ l ∈ ins.targets, ∃! p : Nat, code.instrs[p]? = some (.label l)) ∧
    ∃ depth, DepthMap code.instrs depth ∧
      ∀ i ins, Reachable code.instrs i → code.instrs[i]? = some ins →
        ins.reach (depth i) ≤ code.maxStack := by
  unfold assemble finish at h
  split at h
  next => cases h
  next hfault =>
    split at h
    next => cases h
    next hunbound =>
      cases h
      obtain ⟨⟨depth, live, hbooks⟩, hcode⟩ := ledger_of_run hops hfault
      set a := Assembler.start.run ops
      refine ⟨hcode, ?_, depth, ⟨hbooks.depth_zero, ?_, ?_⟩, ?_⟩
      · intro ins hins l hl
        obtain ⟨i, hi⟩ := List.mem_iff_getElem?.mp hins
        obtain ⟨p, hp⟩ := hbooks.place_of_jumped hunbound (by simpa using hi) hl
        exact ⟨p, by simpa using hp, fun q hq => hbooks.place_unique (by simpa using hq) hp⟩
      · intro i ins _ hi
        exact hbooks.enough (by simpa using hi)
      · intro i j ins hr hi he
        exact (hbooks.edge (hbooks.live_of_reachable hr) (by simpa using hi) he).2
      · intro i ins _ hi
        exact hbooks.room (by simpa using hi)

end Assembler

def Op.makesLabel : Op → Bool
  | .newLabel => true
  | _ => false

/-- The labels that an instruction binds or jumps to. -/
def Instr.mentions (ins : Instr) : List Label := ins.bound?.toList ++ ins.targets

/-- Every label is made known before an instruction uses it. -/
def KnownBeforeUse (ops : List Op) : Prop :=
  ∀ (i : Nat) (ins : Instr), ops[i]? = some (.emit ins) →
    ∀ l ∈ ins.mentions, l < (ops.take i).countP Op.makesLabel

/-- Position `i` ends the flow, and a label stands right after it. Either an instruction up to
there jumps to the label, or the depth that is left over is the one at the label. -/
def LabelFollows (code : List Instr) (depth : Nat → Nat) (i : Nat) (ins : Instr) : Prop :=
  ∃ l, code[i + 1]? = some (.label l) ∧
    (l ∈ jumpedLabels (code.take (i + 1)) ∨ depth (i + 1) = ins.after (depth i))

/-- A depth for every position, reachable or not, on which the instructions agree. The only
code right after the end of a flow is a label. -/
structure Consistent (code : List Instr) (depth : Nat → Nat) : Prop where
  entry : depth 0 = 0
  enough {i : Nat} {ins : Instr} (hi : code[i]? = some ins) : ins.effect.pops ≤ depth i
  next {i : Nat} {ins : Instr} (hi : code[i]? = some ins) (hf : ins.endsFlow = false) :
    depth (i + 1) = ins.after (depth i)
  jump {i j : Nat} {ins : Instr} {l : Label} (hi : code[i]? = some ins) (hl : l ∈ ins.targets)
    (hj : code[j]? = some (.label l)) : depth j = ins.after (depth i)
  follow {i : Nat} {ins : Instr} (hi : code[i]? = some ins) (hf : ins.endsFlow = true)
    (hlt : i + 1 < code.length) : LabelFollows code depth i ins

/-- The depth at a position is within what the instructions before it reach. -/
lemma Consistent.depth_le {code : List Instr} {depth : Nat → Nat} (h : Consistent code depth)
    {n m : Nat} (hn : n < code.length)
    (hm : ∀ i ins, i < n → code[i]? = some ins → ins.reach (depth i) ≤ m) : depth n ≤ m := by
  cases n with
  | zero =>
    rw [h.entry]
    exact Nat.zero_le m
  | succ i =>
    obtain ⟨ins, hi⟩ : ∃ ins, code[i]? = some ins := ⟨code[i], by simp⟩
    have hreach : ins.after (depth i) ≤ m :=
      (ins.after_le_reach _).trans (hm i ins (Nat.lt_succ_self i) hi)
    by_cases hf : ins.endsFlow = true
    · obtain ⟨l, hl, hjump | hleft⟩ := h.follow hi hf hn
      · obtain ⟨j, ins', hj, hl'⟩ := mem_jumpedLabels.mp hjump
        rw [List.getElem?_take] at hj
        split at hj
        next hlt =>
          rw [h.jump hj hl' hl]
          exact (ins'.after_le_reach _).trans (hm j ins' hlt hj)
        next => cases hj
      · rw [hleft]
        exact hreach
    · rw [h.next hi (by simpa using hf)]
      exact hreach

namespace Assembler

/-- The assembler after the operations `pre` of a run whose whole code is consistent. -/
structure Tally (code : List Instr) (depth : Nat → Nat) (pre : List Op) (a : Assembler) :
    Prop where
  fault : a.fault = none
  code_eq : a.code.toList = emitted pre
  size_eq : a.labels.size = pre.countP Op.makesLabel
  live (hr : a.reachable = true) : a.depth = depth (emitted pre).length
  dead (hr : a.reachable = false) : ∃ i ins, i + 1 = (emitted pre).length ∧
    (emitted pre)[i]? = some ins ∧ ins.endsFlow = true ∧ a.depth = ins.after (depth i)
  position {l : Label} {info : LabelInfo} (hl : a.labels[l]? = some info) :
    info.position = none ↔ l ∉ boundLabels (emitted pre)
  noted {l : Label} {info : LabelInfo} (hl : a.labels[l]? = some info) :
    info.depth = none ↔ l ∉ boundLabels (emitted pre) ∧ l ∉ jumpedLabels (emitted pre)
  agrees {l : Label} {info : LabelInfo} {d p : Nat} (hl : a.labels[l]? = some info)
    (hd : info.depth = some d) (hp : code[p]? = some (.label l)) : d = depth p
  max_le {i : Nat} {ins : Instr} (hi : (emitted pre)[i]? = some ins) :
    ins.reach (depth i) ≤ a.maxDepth
  max_eq : a.maxDepth = 0 ∨
    ∃ (i : Nat) (ins : Instr), (emitted pre)[i]? = some ins ∧ ins.reach (depth i) = a.maxDepth
  mentioned {l : Label} (hl : l ∈ boundLabels (emitted pre) ∨ l ∈ jumpedLabels (emitted pre)) :
    l < a.labels.size

section

variable {code : List Instr} {depth : Nat → Nat} {pre : List Op} {a : Assembler}

lemma Tally.newLabel (h : Tally code depth pre a) :
    Tally code depth (pre ++ [.newLabel]) (a.step .newLabel) := by
  have he : emitted (pre ++ [.newLabel]) = emitted pre := by simp
  -- the new label is beyond the old ones, so nothing has mentioned it
  have hfresh : a.labels.size ∉ boundLabels (emitted pre) ∧
      a.labels.size ∉ jumpedLabels (emitted pre) :=
    ⟨fun hb => absurd (h.mentioned (.inl hb)) (Nat.lt_irrefl _),
      fun hj => absurd (h.mentioned (.inr hj)) (Nat.lt_irrefl _)⟩
  constructor
  · exact h.fault
  · rw [he]
    exact h.code_eq
  · simp [step, h.size_eq, List.countP_append, Op.makesLabel]
  · rw [he]
    exact h.live
  · rw [he]
    exact h.dead
  · intro l info hl
    rw [he]
    rcases getElem?_push_cases hl with ⟨-, hl⟩ | ⟨rfl, rfl⟩
    · exact h.position hl
    · simp [hfresh.1]
  · intro l info hl
    rw [he]
    rcases getElem?_push_cases hl with ⟨-, hl⟩ | ⟨rfl, rfl⟩
    · exact h.noted hl
    · simp [hfresh]
  · intro l info d p hl hd hp
    rcases getElem?_push_cases hl with ⟨-, hl⟩ | ⟨rfl, rfl⟩
    · exact h.agrees hl hd hp
    · cases hd
  · rw [he]
    exact h.max_le
  · rw [he]
    exact h.max_eq
  · intro l hl
    rw [he] at hl
    have hlt := h.mentioned hl
    simp only [step, Array.size_push]
    exact Nat.lt_succ_of_lt hlt

lemma Tally.enter {kind : String} (h : Tally code depth pre a) :
    Tally code depth (pre ++ [.enter kind]) (a.step (.enter kind)) := by
  have he : emitted (pre ++ [.enter kind]) = emitted pre := by simp
  obtain ⟨hfault, hcode, hsize, hlive, hdead, hpos, hnoted, hagrees, hle, hmax, hment⟩ := h
  constructor <;> (try rw [he]) <;> (try assumption)
  simpa [List.countP_append, Op.makesLabel, step] using hsize

lemma emitted_emit (ins : Instr) : emitted (pre ++ [.emit ins]) = emitted pre ++ [ins] := by
  simp

lemma getElem?_snoc_cases {α : Type} {xs : List α} {x y : α} {i : Nat}
    (h : (xs ++ [x])[i]? = some y) : xs[i]? = some y ∨ (i = xs.length ∧ x = y) := by
  rcases Nat.lt_trichotomy i xs.length with hlt | rfl | hgt
  · exact .inl (by rwa [List.getElem?_append_left hlt] at h)
  · exact .inr ⟨rfl, by simpa using h⟩
  · have hnone : (xs ++ [x])[i]? = none := List.getElem?_eq_none (by simp; omega)
    rw [hnone] at h
    cases h

/-- An instruction other than a label stands where control comes from above. -/
lemma Tally.reachable (h : Tally code depth pre a) (hc : Consistent code depth) {ins : Instr}
    {rest : List Instr} (hcode : code = emitted pre ++ ins :: rest)
    (hl : ∀ l, ins ≠ .label l) : a.reachable = true := by
  by_contra hr
  obtain ⟨i, last, hi, hlast, hf, -⟩ := h.dead (by simpa using hr)
  have hhere : code[i + 1]? = some ins := by simp [hcode, hi]
  have hlast' : code[i]? = some last := by
    rw [hcode, List.getElem?_append_left (by omega), hlast]
  obtain ⟨l, hlabel, -⟩ := hc.follow hlast' hf (by simp [hcode]; omega)
  rw [hhere, Option.some.injEq] at hlabel
  exact hl l hlabel

lemma Tally.takes (h : Tally code depth pre a) (hc : Consistent code depth) {ins : Instr}
    {rest : List Instr} (hcode : code = emitted pre ++ ins :: rest) (hl : ∀ l, ins ≠ .label l)
    (hknown : ∀ l ∈ ins.targets, l < a.labels.size)
    (hbound : ∀ l ∈ ins.targets, l ∈ boundLabels code) : a.Takes ins := by
  have hdepth := h.live (h.reachable hc hcode hl)
  have hhere : code[(emitted pre).length]? = some ins := by simp [hcode]
  refine ⟨?_, ?_⟩
  · rw [hdepth]
    exact hc.enough hhere
  · intro l hmem
    have hlt := hknown l hmem
    obtain ⟨info, hinfo⟩ : ∃ info, a.labels[l]? = some info := ⟨a.labels[l], by simp⟩
    refine ⟨info, hinfo, ?_⟩
    intro d hd
    obtain ⟨p, hp⟩ := mem_boundLabels.mp (hbound l hmem)
    rw [hdepth, ← hc.jump hhere hmem hp]
    exact h.agrees hinfo hd hp

lemma Tally.taken (h : Tally code depth pre a) (hc : Consistent code depth) {ins : Instr}
    {rest : List Instr} (hcode : code = emitted pre ++ ins :: rest) (hl : ∀ l, ins ≠ .label l)
    (hknown : ∀ l ∈ ins.targets, l < a.labels.size)
    (hbound : ∀ l ∈ ins.targets, l ∈ boundLabels code) :
    Tally code depth (pre ++ [.emit ins]) (a.step (.emit ins)) := by
  have hr := h.reachable hc hcode hl
  have hdepth := h.live hr
  have hhere : code[(emitted pre).length]? = some ins := by simp [hcode]
  have hstep : a.step (.emit ins) = a.taken ins :=
    emit_of_takes hl (h.takes hc hcode hl hknown hbound)
  have hbl : boundLabels (emitted pre ++ [ins]) = boundLabels (emitted pre) := by
    have hnone : ins.bound? = none := by
      cases he : ins.bound? with
      | none => rfl
      | some l => exact absurd (Instr.eq_label_of_bound he) (hl l)
    simp [boundLabels, hnone]
  have hjl : ∀ l, l ∈ jumpedLabels (emitted pre ++ [ins]) ↔
      l ∈ jumpedLabels (emitted pre) ∨ l ∈ ins.targets := by
    intro l
    simp [jumpedLabels]
  rw [hstep]
  constructor
  · exact h.fault
  · simp [Assembler.taken, h.code_eq]
  · simp [Assembler.taken, h.size_eq, List.countP_append, Op.makesLabel]
  · intro hr'
    have hf : ins.endsFlow = false := by simpa [Assembler.taken, hr] using hr'
    rw [emitted_emit, List.length_append, List.length_singleton, hc.next hhere hf, ← hdepth]
    rfl
  · intro hr'
    have hf : ins.endsFlow = true := by simpa [Assembler.taken, hr] using hr'
    refine ⟨(emitted pre).length, ins, ?_, ?_, hf, ?_⟩
    · simp
    · simp
    · rw [← hdepth]
      rfl
  · intro l info hinfo
    obtain ⟨old, hold, hpos, -⟩ := Assembler.labels_taken hinfo
    rw [emitted_emit, hbl, hpos]
    exact h.position hold
  · intro l info hinfo
    obtain ⟨old, hold, -, ⟨hmem, hd⟩ | ⟨hmem, hd⟩⟩ := Assembler.labels_taken hinfo
    · rw [emitted_emit, hbl, hjl, hd]
      simp [hmem]
    · rw [emitted_emit, hbl, hjl, hd, h.noted hold]
      simp [hmem]
  · intro l info d p hinfo hd hp
    obtain ⟨old, hold, -, ⟨hmem, hd'⟩ | ⟨hmem, hd'⟩⟩ := Assembler.labels_taken hinfo
    · rw [hd', Option.some.injEq] at hd
      rw [← hd, hc.jump hhere hmem hp, hdepth]
    · exact h.agrees hold (hd' ▸ hd) hp
  · intro i x hi
    rw [emitted_emit] at hi
    rcases getElem?_snoc_cases hi with hi | ⟨rfl, rfl⟩
    · exact (h.max_le hi).trans (le_max_left _ _)
    · rw [← hdepth]
      exact le_max_right _ _
  · rw [emitted_emit]
    rcases Nat.le_total a.maxDepth (ins.reach a.depth) with hle | hle
    · refine .inr ⟨(emitted pre).length, ins, by simp, ?_⟩
      rw [← hdepth]
      exact (max_eq_right hle).symm
    · have hkeep : (a.taken ins).maxDepth = a.maxDepth := max_eq_left hle
      rw [hkeep]
      rcases h.max_eq with h0 | ⟨i, x, hi, hx⟩
      · exact .inl h0
      · have hlt : i < (emitted pre).length := (List.getElem?_eq_some_iff.mp hi).1
        exact .inr ⟨i, x, by rw [List.getElem?_append_left hlt, hi], hx⟩
  · intro l hmem
    rw [emitted_emit, hbl, hjl] at hmem
    have hsize : (a.taken ins).labels.size = a.labels.size := by simp [Assembler.taken]
    rw [hsize]
    rcases hmem with hb | hj | ht
    · exact h.mentioned (.inl hb)
    · exact h.mentioned (.inr hj)
    · exact hknown l ht

/-- A label is bound at the depth that the whole code gives its place. -/
lemma Tally.binds (h : Tally code depth pre a) (hc : Consistent code depth) {l : Label}
    {rest : List Instr} (hcode : code = emitted pre ++ .label l :: rest)
    (hn : (boundLabels code).Nodup) (hknown : l < a.labels.size) :
    a.Binds l ∧ a.depthAt l = depth (emitted pre).length := by
  have hhere : code[(emitted pre).length]? = some (.label l) := by simp [hcode]
  have hfresh : l ∉ boundLabels (emitted pre) := by
    intro hmem
    rw [hcode, boundLabels_append, List.nodup_append] at hn
    exact hn.2.2 l hmem l (by simp [boundLabels, Instr.bound?]) rfl
  obtain ⟨⟨position, e⟩, hinfo⟩ : ∃ info, a.labels[l]? = some info :=
    ⟨a.labels[l], Array.getElem?_eq_getElem hknown⟩
  have hpos : position = none := (h.position hinfo).mpr hfresh
  subst hpos
  have hsame : ∀ d, e = some d → d = depth (emitted pre).length :=
    fun d hd => h.agrees hinfo hd hhere
  refine ⟨⟨e, hinfo, fun hr d hd => (hsame d hd).trans (h.live hr).symm⟩, ?_⟩
  unfold depthAt
  split
  next hr => exact h.live hr
  next hr =>
    obtain ⟨i, last, hi, hlast, hf, hleft⟩ := h.dead (by simpa using hr)
    have hlast' : code[i]? = some last := by
      rw [hcode, List.getElem?_append_left (by omega), hlast]
    have htake : code.take (i + 1) = emitted pre := by
      rw [hcode, hi, List.take_left]
    obtain ⟨k, hk, hjump⟩ := hc.follow hlast' hf (by simp [hcode]; omega)
    rw [hi, hhere, Option.some.injEq, Instr.label.injEq] at hk
    subst hk
    rw [htake, hi, ← hleft] at hjump
    rw [hinfo, Option.bind_some]
    cases e with
    | some d => exact hsame d rfl
    | none =>
      -- no jump has noted a depth, so the one that is left over counts
      rcases hjump with hjump | hjump
      · exact absurd hjump ((h.noted hinfo).mp rfl).2
      · exact hjump.symm

lemma Tally.bound (h : Tally code depth pre a) (hc : Consistent code depth) {l : Label}
    {rest : List Instr} (hcode : code = emitted pre ++ .label l :: rest)
    (hn : (boundLabels code).Nodup) (hknown : l < a.labels.size) :
    Tally code depth (pre ++ [.emit (.label l)]) (a.step (.emit (.label l))) := by
  have hhere : code[(emitted pre).length]? = some (.label l) := by simp [hcode]
  obtain ⟨hb, hdepth⟩ := h.binds hc hcode hn hknown
  have hstep : a.step (.emit (.label l)) = a.bound l := bind_of_binds hb
  have hsize : a.code.size = (emitted pre).length := by rw [← h.code_eq, Array.length_toList]
  have hbl : ∀ k, k ∈ boundLabels (emitted pre ++ [.label l]) ↔
      k ∈ boundLabels (emitted pre) ∨ k = l := by
    intro k
    simp [boundLabels, Instr.bound?]
  have hjl : jumpedLabels (emitted pre ++ [.label l]) = jumpedLabels (emitted pre) := by
    simp [jumpedLabels, Instr.targets]
  have htable : ∀ {k : Label} {info : LabelInfo}, (a.bound l).labels[k]? = some info →
      (k = l ∧ info = ⟨some (emitted pre).length, some (depth (emitted pre).length)⟩) ∨
        (k ≠ l ∧ a.labels[k]? = some info) := by
    intro k info hk
    by_cases hkl : k = l
    · subst hkl
      rw [labels_bound_self hknown, hdepth, hsize] at hk
      exact .inl ⟨rfl, (Option.some.inj hk).symm⟩
    · rw [a.labels_bound_of_ne hkl] at hk
      exact .inr ⟨hkl, hk⟩
  rw [hstep]
  constructor
  · exact h.fault
  · simp [Assembler.bound, h.code_eq]
  · simp [Assembler.bound, h.size_eq, List.countP_append, Op.makesLabel]
  · intro _
    have hfall : depth ((emitted pre).length + 1) = depth (emitted pre).length :=
      (hc.next hhere rfl).trans (Instr.after_label l _)
    rw [emitted_emit, List.length_append, List.length_singleton, hfall]
    exact hdepth
  · intro hr
    cases hr
  · intro k info hk
    rw [emitted_emit, hbl]
    rcases htable hk with ⟨rfl, rfl⟩ | ⟨hkl, hk⟩
    · simp
    · rw [h.position hk]
      simp [hkl]
  · intro k info hk
    rw [emitted_emit, hbl, hjl]
    rcases htable hk with ⟨rfl, rfl⟩ | ⟨hkl, hk⟩
    · simp
    · rw [h.noted hk]
      simp [hkl]
  · intro k info d p hk hd hp
    rcases htable hk with ⟨rfl, rfl⟩ | ⟨hkl, hk⟩
    · rw [label_place_unique hn hp hhere]
      exact (Option.some.inj hd).symm
    · exact h.agrees hk hd hp
  · intro i ins hi
    rw [emitted_emit] at hi
    rcases getElem?_snoc_cases hi with hi | ⟨rfl, rfl⟩
    · exact h.max_le hi
    · rw [Instr.reach_label]
      refine hc.depth_le (by simp [hcode]) ?_
      intro i ins hlt hi
      rw [hcode, List.getElem?_append_left hlt] at hi
      exact h.max_le hi
  · rw [emitted_emit]
    rcases h.max_eq with h0 | ⟨i, x, hi, hx⟩
    · exact .inl h0
    · have hlt : i < (emitted pre).length := (List.getElem?_eq_some_iff.mp hi).1
      exact .inr ⟨i, x, by rw [List.getElem?_append_left hlt, hi], hx⟩
  · intro k hk
    rw [emitted_emit, hbl, hjl] at hk
    have hsame : (a.bound l).labels.size = a.labels.size := by simp [Assembler.bound]
    rw [hsame]
    rcases hk with (hk | rfl) | hk
    · exact h.mentioned (.inl hk)
    · exact hknown
    · exact h.mentioned (.inr hk)

end

lemma Tally.start (code : List Instr) {depth : Nat → Nat} (h0 : depth 0 = 0) :
    Tally code depth [] Assembler.start := by
  constructor <;>
    simp [Assembler.start, emitted, boundLabels, jumpedLabels, h0]

/-- What the assembler knows after any part of a run whose code is consistent. -/
lemma tally_of_run {ops : List Op} {depth : Nat → Nat} (hops : ∀ op ∈ ops, op.builds = true)
    (hknown : KnownBeforeUse ops) (hn : (boundLabels (emitted ops)).Nodup)
    (hbound : ∀ l ∈ jumpedLabels (emitted ops), l ∈ boundLabels (emitted ops))
    (hc : Consistent (emitted ops) depth) {pre post : List Op} (hsplit : ops = pre ++ post) :
    Tally (emitted ops) depth pre (Assembler.start.run pre) := by
  induction pre using List.reverseRecOn generalizing post with
  | nil => exact Tally.start _ hc.entry
  | append_singleton pre op ih =>
    have hsplit' : ops = pre ++ op :: post := by simpa using hsplit
    have hprev := ih hsplit'
    rw [run_append]
    show Tally _ _ _ ((Assembler.start.run pre).step op)
    cases op with
    | newLabel => exact hprev.newLabel
    | push n => simpa [Op.builds] using hops (.push n) (by simp [hsplit'])
    | pop n => simpa [Op.builds] using hops (.pop n) (by simp [hsplit'])
    | enter kind => exact hprev.enter
    | emit ins =>
      have hcode : emitted ops = emitted pre ++ ins :: emitted post := by simp [hsplit']
      have hsize : ∀ l ∈ ins.mentions, l < (Assembler.start.run pre).labels.size := by
        intro l hmem
        have hlt := hknown pre.length ins (by simp [hsplit']) l hmem
        rwa [hsplit', List.take_left, ← hprev.size_eq] at hlt
      by_cases hl : ∀ l, ins ≠ .label l
      · refine hprev.taken hc hcode hl ?_ ?_
        · intro l hmem
          exact hsize l (List.mem_append_right _ hmem)
        · intro l hmem
          exact hbound l (by simp [hcode, jumpedLabels, hmem])
      · push Not at hl
        obtain ⟨l, rfl⟩ := hl
        exact hprev.bound hc hcode hn (hsize l (by simp [Instr.mentions, Instr.bound?]))

lemma unbound?_of_forall {n : Label} {infos : List LabelInfo}
    (h : ∀ info ∈ infos, info.position = none → info.depth = none) :
    unbound? n infos = none := by
  induction infos generalizing n with
  | nil => rfl
  | cons info rest ih =>
    have hrest := ih (n := n + 1) fun x hx => h x (List.mem_cons_of_mem _ hx)
    have hinfo := h info List.mem_cons_self
    obtain ⟨position, depth⟩ := info
    cases position with
    | some p => exact hrest
    | none =>
      cases depth with
      | none => exact hrest
      | some d => cases hinfo rfl

end Assembler

/-- The depths that the instructions of a code reach. -/
def reaches (code : List Instr) (depth : Nat → Nat) : Set Nat :=
  {d | ∃ (i : Nat) (ins : Instr), code[i]? = some ins ∧ ins.reach (depth i) = d}

/-- The assembler accepts a consistent code. -/
theorem assemble_of_consistent {ops : List Op} {depth : Nat → Nat}
    (hops : ∀ op ∈ ops, op.builds = true) (hknown : KnownBeforeUse ops)
    (hn : (boundLabels (emitted ops)).Nodup)
    (hbound : ∀ l ∈ jumpedLabels (emitted ops), l ∈ boundLabels (emitted ops))
    (hc : Consistent (emitted ops) depth) :
    ∃ m, assemble ops = .ok ⟨emitted ops, m⟩ ∧
      IsGreatest (insert 0 (reaches (emitted ops) depth)) m := by
  have h := Assembler.tally_of_run hops hknown hn hbound hc (List.append_nil ops).symm
  refine ⟨(Assembler.start.run ops).maxDepth, ?_, ?_, ?_⟩
  · have hall : Assembler.unbound? 0 (Assembler.start.run ops).labels.toList = none := by
      refine Assembler.unbound?_of_forall ?_
      intro info hmem hpos
      obtain ⟨l, hl⟩ := List.mem_iff_getElem?.mp hmem
      rw [Array.getElem?_toList] at hl
      have hfree := (h.position hl).mp hpos
      exact (h.noted hl).mpr ⟨hfree, fun hj => hfree (hbound l hj)⟩
    simp only [assemble, Assembler.finish, h.fault, hall, h.code_eq]
  · rcases h.max_eq with h0 | ⟨i, ins, hi, hreach⟩
    · exact .inl h0
    · exact .inr ⟨i, ins, hi, hreach⟩
  · rintro d (rfl | ⟨i, ins, hi, rfl⟩)
    · exact Nat.zero_le _
    · exact h.max_le hi

/-- A run in which every label is known before its first use, bound at most once and bound if
it is jumped to, and where after the end of a flow comes only a label that an earlier
instruction jumps to. -/
structure Tidy (ops : List Op) : Prop where
  known : KnownBeforeUse ops
  once : (boundLabels (emitted ops)).Nodup
  bound {l : Label} (hl : l ∈ jumpedLabels (emitted ops)) : l ∈ boundLabels (emitted ops)
  follow {i : Nat} {ins : Instr} (hi : (emitted ops)[i]? = some ins) (hf : ins.endsFlow = true)
    (hlt : i + 1 < (emitted ops).length) : ∃ l, (emitted ops)[i + 1]? = some (.label l) ∧
      l ∈ jumpedLabels ((emitted ops).take (i + 1))

/-- A tidy run has no dead code. -/
lemma Tidy.reachable {ops : List Op} (h : Tidy ops) {n : Nat} (hn : n < (emitted ops).length) :
    Reachable (emitted ops) n := by
  induction n using Nat.strong_induction_on with
  | _ n ih =>
    cases n with
    | zero => exact .entry _
    | succ i =>
      obtain ⟨ins, hi⟩ : ∃ ins, (emitted ops)[i]? = some ins := ⟨(emitted ops)[i], by simp⟩
      by_cases hf : ins.endsFlow = true
      · obtain ⟨l, hl, hjump⟩ := h.follow hi hf hn
        obtain ⟨j, from_, hj, hmem⟩ := mem_jumpedLabels.mp hjump
        rw [List.getElem?_take] at hj
        split at hj
        next hlt => exact (ih j hlt (by omega)).step (.jump hj hmem hl)
        next => cases hj
      · exact (ih i (Nat.lt_succ_self i) (by omega)).step (.next hi (by simpa using hf))

lemma Tidy.consistent {ops : List Op} (h : Tidy ops) {depth : Nat → Nat}
    (hd : DepthMap (emitted ops) depth) : Consistent (emitted ops) depth := by
  have hreach : ∀ {i : Nat} {ins : Instr}, (emitted ops)[i]? = some ins →
      Reachable (emitted ops) i :=
    fun hi => h.reachable (List.getElem?_eq_some_iff.mp hi).1
  constructor
  · exact hd.entry
  · intro i ins hi
    exact hd.enough (hreach hi) hi
  · intro i ins hi hf
    exact hd.agree (hreach hi) hi (.next hi hf)
  · intro i j ins l hi hl hj
    exact hd.agree (hreach hi) hi (.jump hi hl hj)
  · intro i ins hi hf hlt
    obtain ⟨l, hl, hjump⟩ := h.follow hi hf hlt
    exact ⟨l, hl, .inl hjump⟩

/-- The depth account of the assembler is a stack verifier. What it accepts has a depth at
every place that control can reach, with every label that is jumped to bound once; and it
accepts every tidy run that has such depths, with the greatest depth as the result. -/
theorem assemble_verifies_depths (ops : List Op) (hops : ∀ op ∈ ops, op.builds = true) :
    (∀ code, assemble ops = .ok code →
      code.instrs = emitted ops ∧
      (∀ ins ∈ code.instrs, ∀ l ∈ ins.targets, ∃! p : Nat, code.instrs[p]? = some (.label l)) ∧
      ∃ depth, DepthMap code.instrs depth ∧
        ∀ i ins, Reachable code.instrs i → code.instrs[i]? = some ins →
          ins.reach (depth i) ≤ code.maxStack) ∧
    (∀ depth, Tidy ops → DepthMap (emitted ops) depth →
      ∃ m, assemble ops = .ok ⟨emitted ops, m⟩ ∧
        IsGreatest (insert 0 (reaches (emitted ops) depth)) m) := by
  refine ⟨fun code h => Assembler.sound_of_assemble hops h, ?_⟩
  intro depth htidy hdepth
  exact assemble_of_consistent hops htidy.known htidy.once (fun l hl => htidy.bound hl)
    (htidy.consistent hdepth)

/-- A loop that tests its condition first: label 0 is the head, label 1 the exit. -/
def loopOps : List Op :=
  [.newLabel, .newLabel, .emit (.label 0), .emit (.pushInt 7), .emit (.ifZero .eq 1),
    .emit (.goto 0), .emit (.label 1), .emit (.ret none)]

theorem assemble_verifies_loop :
    (∀ op ∈ loopOps, op.builds = true) ∧ Tidy loopOps ∧
    DepthMap (emitted loopOps) (fun i => if i = 2 then 1 else 0) ∧
    ∃ m, assemble loopOps = .ok ⟨emitted loopOps, m⟩ ∧
      IsGreatest (insert 0 (reaches (emitted loopOps) fun i => if i = 2 then 1 else 0)) m := by
  have hops : ∀ op ∈ loopOps, op.builds = true := by decide
  have hplace : ∀ {i : Nat} {ins : Instr}, (emitted loopOps)[i]? = some ins → i < 6 :=
    fun hi => (List.getElem?_eq_some_iff.mp hi).1
  have htidy : Tidy loopOps := by
    constructor
    · intro i ins hi l hl
      have hlt : i < 8 := (List.getElem?_eq_some_iff.mp hi).1
      interval_cases i <;> cases hi <;> revert l <;> decide
    · decide
    · decide
    · intro i ins hi hf hlt
      have := hplace hi
      interval_cases i <;> cases hi <;> cases hf
      · exact ⟨1, rfl, by decide⟩
      · exact absurd hlt (by decide)
  have hdepth : DepthMap (emitted loopOps) (fun i => if i = 2 then 1 else 0) := by
    constructor
    · rfl
    · intro i ins _ hi
      have := hplace hi
      interval_cases i <;> cases hi <;> decide
    · intro i j ins _ hi he
      have := hplace hi
      cases he with
      | next hi' hf => interval_cases i <;> cases hi <;> cases hi' <;> cases hf <;> rfl
      | jump hi' hl hj =>
        have := hplace hj
        interval_cases i <;> cases hi <;> cases hi' <;> interval_cases j <;> cases hj <;>
          revert hl <;> decide
  exact ⟨hops, htidy, hdepth, (assemble_verifies_depths loopOps hops).2 _ htidy hdepth⟩

end PascalJvm.Jvm
