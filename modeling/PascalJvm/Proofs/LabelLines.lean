import Mathlib.Tactic
import PascalJvm.Jvm.Listing
import PascalJvm.Proofs.StackDepth

/-!
# Labels in listings

The assembler numbers labels as they are made known. It binds them in any order, and some of them
never. A listing numbers the bound labels from the top of the body, so a label gets its name from
its rank among the positions in the label table (`Assembler.byPosition`). In the lines of a body
that is assembled, the names stand at the margin in order, and every jump is printed with the name
on the line where its label stands.
-/
namespace PascalJvm.Jvm

namespace Assembler

/-- Where a label is bound. -/
def position? (a : Assembler) (l : Label) : Option Nat := a.labels[l]?.bind LabelInfo.position

/-- The depth that is noted for a label. -/
def depth? (a : Assembler) (l : Label) : Option Nat := a.labels[l]?.bind LabelInfo.depth

/-- The table of labels agrees with the code: a label has the position where it stands, and a
label that is jumped to has a depth. -/
structure Recorded (a : Assembler) : Prop where
  position_iff (l : Label) (p : Nat) : a.position? l = some p ↔ a.code[p]? = some (.label l)
  jumped {ins : Instr} {l : Label} (hi : ins ∈ a.code) (hl : l ∈ ins.targets) : a.depth? l ≠ none

lemma Recorded.start : Recorded start := by
  constructor <;> simp [Assembler.start, position?]

lemma Recorded.newLabel {a : Assembler} (h : a.Recorded) : (a.step .newLabel).Recorded := by
  -- the new entry is empty
  have hinfo (f : LabelInfo → Option Nat) (hf : f {} = none) (l : Label) :
      (a.labels.push {})[l]?.bind f = a.labels[l]?.bind f := by
    rw [Array.getElem?_push]
    split
    next hl => simp [hl, hf]
    next => rfl
  constructor
  · intro l p
    rw [position?, step, hinfo _ rfl]
    exact h.position_iff l p
  · intro ins l hi hl
    rw [depth?, step, hinfo _ rfl]
    exact h.jumped hi hl

lemma Recorded.taken {a : Assembler} (h : a.Recorded) {ins : Instr} (hl : ∀ l, ins ≠ .label l)
    (ht : a.Takes ins) : (a.taken ins).Recorded := by
  have hposition (l : Label) : (a.taken ins).position? l = a.position? l := by
    rw [position?, position?, Assembler.taken, getElem?_noted]
    split_ifs
    · cases a.labels[l]? <;> rfl
    · rfl
  have hdepth (l : Label) : (a.taken ins).depth? l =
      if l ∈ ins.targets then a.labels[l]?.map fun _ => ins.after a.depth else a.depth? l := by
    rw [depth?, depth?, Assembler.taken, getElem?_noted]
    split_ifs
    · cases a.labels[l]? <;> rfl
    · rfl
  constructor
  · intro l p
    rw [hposition, h.position_iff, Assembler.taken, Array.getElem?_push]
    split_ifs with hp
    · simp [hp, hl l]
    · rfl
  · intro i l hi hli
    rw [hdepth]
    split_ifs with hmem
    · obtain ⟨info, hinfo, -⟩ := ht.known l hmem
      simp [hinfo]
    · rcases Array.mem_push.mp hi with hi | rfl
      · exact h.jumped hi hli
      · exact absurd hli hmem

lemma Recorded.bound {a : Assembler} (h : a.Recorded) {l : Label} (hb : a.Binds l) :
    (a.bound l).Recorded := by
  obtain ⟨e, hl, -⟩ := hb
  have hlt : l < a.labels.size := (Array.getElem?_eq_some_iff.mp hl).1
  have hunplaced : a.position? l = none := by simp [position?, hl]
  have hinfo (k : Label) : (a.bound l).labels[k]? =
      if l = k then some ⟨some a.code.size, some (a.depthAt l)⟩ else a.labels[k]? := by
    rw [Assembler.bound, Array.getElem?_setIfInBounds]
    split_ifs <;> rfl
  constructor
  · intro k p
    have hcode : (a.bound l).code[p]? =
        if p = a.code.size then some (.label l) else a.code[p]? := by
      rw [Assembler.bound, Array.getElem?_push]
    rw [position?, hinfo, hcode]
    split_ifs with hk hp hp
    · simp [hk, hp]
    · subst hk
      have hnot := h.position_iff l p
      rw [hunplaced] at hnot
      simpa [Ne.symm hp] using hnot
    · have hnot := h.position_iff k p
      rw [hp] at hnot ⊢
      simpa [hk, position?] using hnot
    · exact h.position_iff k p
  · intro ins k hi hk
    rw [depth?, hinfo]
    split_ifs
    · simp
    · rcases Array.mem_push.mp hi with hi | rfl
      · exact h.jumped hi hk
      · cases hk

/-- Every operation that causes no fault keeps the table in agreement with the code. -/
lemma Recorded.step {a : Assembler} (h : a.Recorded) {op : Op} (hf : (a.step op).fault = none) :
    (a.step op).Recorded := by
  cases op with
  | newLabel => exact h.newLabel
  | push n => exact ⟨h.position_iff, h.jumped⟩
  | pop n =>
    rw [Assembler.step, pop] at hf ⊢
    split_ifs at hf ⊢
    · exact absurd hf (fail_fault _ _)
    · exact ⟨h.position_iff, h.jumped⟩
  | enter kind => exact h
  | emit ins =>
    by_cases hl : ∀ l, ins ≠ .label l
    · obtain ⟨-, ht⟩ := takes_of_emit hl hf
      rw [Assembler.step, emit_of_takes hl ht]
      exact h.taken hl ht
    · obtain ⟨l, rfl⟩ := not_forall_not.mp hl
      obtain ⟨-, hb⟩ := binds_of_bind hf
      rw [Assembler.step, emit, bind_of_binds hb]
      exact h.bound hb

lemma recorded_of_run {ops : List Op} (hf : (start.run ops).fault = none) :
    (start.run ops).Recorded := by
  induction ops using List.reverseRecOn with
  | nil => exact .start
  | append_singleton ops op ih =>
    have hrun : start.run (ops ++ [op]) = (start.run ops).step op := by
      rw [run_append]
      rfl
    rw [hrun] at hf ⊢
    exact (ih (fault_of_step hf)).step hf

/-- A run that is accepted binds every label that it jumps to. -/
lemma recorded_of_assemble {ops : List Op} {c : Code} (h : assemble ops = .ok c) :
    c.instrs = (start.run ops).code.toList ∧ (start.run ops).Recorded ∧
      ∀ ins ∈ c.instrs, ∀ l ∈ ins.targets, ∃ p, (start.run ops).position? l = some p := by
  unfold assemble finish at h
  split at h
  next => cases h
  next hfault =>
    split at h
    next => cases h
    next hunbound =>
      cases h
      have hrecorded := recorded_of_run hfault
      refine ⟨rfl, hrecorded, fun ins hins l hl => ?_⟩
      have hdepth := hrecorded.jumped (Array.mem_toList_iff.mp hins) hl
      unfold depth? at hdepth
      unfold position?
      cases hinfo : (start.run ops).labels[l]? with
      | none => simp [hinfo] at hdepth
      | some info =>
        rw [hinfo] at hdepth
        cases hp : info.position with
        | some p => exact ⟨p, by simp [hp]⟩
        | none =>
          have hmem : info ∈ (start.run ops).labels.toList := by
            simpa using Array.mem_of_getElem? hinfo
          exact absurd (unbound?_eq_none hunbound hmem hp) hdepth

/-- The labels that are bound, with their positions, in the order of their numbers. -/
def placed (a : Assembler) : List (Nat × Label) :=
  a.labels.toList.zipIdx.filterMap fun (info, l) => info.position.map (·, l)

/-- By position, and labels at one position by number. -/
def comesBefore (x y : Nat × Label) : Bool := x.1 < y.1 || x.1 = y.1 && x.2 ≤ y.2

lemma comesBefore_iff {x y : Nat × Label} : comesBefore x y = true ↔ toLex x ≤ toLex y := by
  simp [comesBefore, Prod.Lex.toLex_le_toLex]

/-- The labels that are bound, sorted by their positions. -/
def byPosition (a : Assembler) : List Label := (a.placed.mergeSort comesBefore).map Prod.snd

lemma mem_placed {a : Assembler} {l : Label} {p : Nat} :
    (p, l) ∈ a.placed ↔ a.position? l = some p := by
  simp only [placed, List.mem_filterMap, List.mem_zipIdx_iff_getElem?, Option.map_eq_some_iff,
    Prod.mk.injEq, Prod.exists, Array.getElem?_toList, position?, Option.bind_eq_some_iff]
  constructor
  · rintro ⟨info, k, hk, q, hq, rfl, rfl⟩
    exact ⟨info, hk, hq⟩
  · rintro ⟨info, hl, hp⟩
    exact ⟨info, l, hl, p, hp, rfl, rfl⟩

end Assembler

/-- The labels that stand in a code, with their positions. -/
def labelMarks (code : List Instr) : List (Nat × Label) :=
  code.zipIdx.filterMap fun (ins, p) => ins.bound?.map (p, ·)

lemma mem_labelMarks {code : List Instr} {l : Label} {p : Nat} :
    (p, l) ∈ labelMarks code ↔ code[p]? = some (.label l) := by
  simp only [labelMarks, List.mem_filterMap, List.mem_zipIdx_iff_getElem?, Option.map_eq_some_iff,
    Prod.mk.injEq, Prod.exists]
  constructor
  · rintro ⟨ins, q, hq, k, hk, rfl, rfl⟩
    rw [hq, Instr.eq_label_of_bound hk]
  · intro h
    exact ⟨.label l, p, h, l, rfl, rfl, rfl⟩

/-- The numbers beside the members of a list ascend. -/
lemma pairwise_zipIdx {α : Type} (xs : List α) : xs.zipIdx.Pairwise fun x y => x.2 < y.2 := by
  rw [List.pairwise_iff_getElem]
  intro i j hi hj hij
  simpa using hij

lemma labelMarks_pairwise (code : List Instr) :
    (labelMarks code).Pairwise fun x y => x.1 < y.1 := by
  rw [labelMarks, List.pairwise_filterMap]
  refine (pairwise_zipIdx code).imp fun hlt x hx y hy => ?_
  obtain ⟨k, -, rfl⟩ := Option.map_eq_some_iff.mp hx
  obtain ⟨m, -, rfl⟩ := Option.map_eq_some_iff.mp hy
  exact hlt

lemma map_labelMarks (code : List Instr) : (labelMarks code).map Prod.snd = boundLabels code := by
  have hall (n : Nat) :
      ((code.zipIdx n).filterMap fun (ins, p) => ins.bound?.map (p, ·)).map Prod.snd =
        boundLabels code := by
    induction code generalizing n with
    | nil => rfl
    | cons ins rest ih =>
      rw [List.zipIdx_cons, List.filterMap_cons, boundLabels_cons]
      cases hb : ins.bound? with
      | none => simpa [hb] using ih (n + 1)
      | some l => simpa [hb] using ih (n + 1)
  exact hall 0

namespace Assembler

/-- Labels are made known one by one, so no two have one number. -/
lemma placed_nodup (a : Assembler) : a.placed.Nodup := by
  rw [placed, List.Nodup, List.pairwise_filterMap]
  refine (pairwise_zipIdx _).imp fun hlt x hx y hy => ?_
  obtain ⟨p, -, rfl⟩ := Option.map_eq_some_iff.mp hx
  obtain ⟨q, -, rfl⟩ := Option.map_eq_some_iff.mp hy
  intro he
  exact absurd (congrArg Prod.snd he) (Nat.ne_of_lt hlt)

/-- The order of the positions in the table is the order in the code. -/
lemma Recorded.byPosition_eq {a : Assembler} (h : a.Recorded) :
    a.byPosition = boundLabels a.code.toList := by
  have hmarks := labelMarks_pairwise a.code.toList
  have hperm : (a.placed.mergeSort comesBefore).Perm (labelMarks a.code.toList) := by
    refine (List.mergeSort_perm ..).trans ((List.perm_ext_iff_of_nodup a.placed_nodup ?_).mpr ?_)
    · exact hmarks.imp fun hlt he => absurd (congrArg Prod.fst he) (Nat.ne_of_lt hlt)
    · rintro ⟨p, l⟩
      rw [mem_placed, mem_labelMarks, h.position_iff, Array.getElem?_toList]
  have hsorted : (a.placed.mergeSort comesBefore).Pairwise fun x y => comesBefore x y = true := by
    refine List.pairwise_mergeSort ?_ ?_ _
    · simp only [comesBefore_iff]
      exact fun x y z => le_trans
    · simp only [Bool.or_eq_true, comesBefore_iff]
      exact fun x y => le_total _ _
  rw [byPosition, ← map_labelMarks]
  refine congrArg (List.map Prod.snd) (hperm.eq_of_pairwise ?_ hsorted (hmarks.imp ?_))
  · simp only [comesBefore_iff]
    exact fun x y _ _ hxy hyx => toLex.injective (le_antisymm hxy hyx)
  · intro x y hlt
    simp [comesBefore, hlt]

/-- No label stands at two places. -/
lemma Recorded.nodup {a : Assembler} (h : a.Recorded) : (boundLabels a.code.toList).Nodup := by
  rw [← map_labelMarks, List.Nodup, List.pairwise_map]
  refine (labelMarks_pairwise _).imp_of_mem ?_
  rintro ⟨p, l⟩ ⟨q, k⟩ hp hq hlt rfl
  rw [mem_labelMarks, Array.getElem?_toList, ← h.position_iff] at hp hq
  exact Nat.ne_of_lt hlt (Option.some.inj (hp.symm.trans hq))

end Assembler

namespace Listing

/-- Labels stand at the margin, and all other lines of a body are indented. -/
def atMargin (line : String) : Bool := line.toList.head? ≠ some ' '

/-- The number of lines in front of the instruction at a position. -/
def lineOf (program : String) (c : Code) (p : Nat) : Nat :=
  ((c.instrs.take p).flatMap (instr program (labelName c.labels))).length

/-- The lines of a jump that name no label. -/
def opener : Instr → List String
  | .lookupSwitch .. => ["    lookupswitch"]
  | _ => []

/-- The lines of a jump that name a label, each with the text in front of the name. -/
def operands : Instr → List (String × Label)
  | .goto l => [("    goto ", l)]
  | .ifZero r l => [("    if" ++ relation r ++ " ", l)]
  | .ifCompare r l => [("    if_icmp" ++ relation r ++ " ", l)]
  | .lookupSwitch table default =>
      table.map (fun (k, l) => ("      " ++ toString k.toInt ++ " : ", l)) ++
        [("      default : ", default)]
  | _ => []

variable {program : String} {name : Label → String} {c : Code}

lemma map_operands (ins : Instr) : (operands ins).map Prod.snd = ins.targets := by
  cases ins <;> simp [operands, Instr.targets]

/-- A jump is printed as its opener and its operands. -/
lemma instr_of_jump {ins : Instr} (h : ins.targets ≠ []) :
    instr program name ins = opener ins ++ (operands ins).map fun x => x.1 ++ name x.2 := by
  have hindent (s t : String) : "    " ++ (s ++ t) = ("    " ++ s) ++ t := String.append_assoc.symm
  have hdeep (s : String) : "    " ++ ("  " ++ s) = "      " ++ s := by
    rw [hindent]
    rfl
  cases ins with
  | goto l => exact congrArg (fun x => [x]) (hindent "goto " _)
  | ifZero r l => simp [instr, operation, opener, operands, String.append_assoc, hindent]
  | ifCompare r l => simp [instr, operation, opener, operands, String.append_assoc, hindent]
  | lookupSwitch table default =>
    have hdefault : "    " ++ ("  default : " ++ name default) =
        "      default : " ++ name default :=
      hindent "  default : " _
    simp [instr, operation, opener, operands, String.append_assoc, hdeep, hdefault]
  | _ => exact absurd rfl h

/-- The lines of the instruction at a position stand together. -/
lemma getElem?_lineOf {p k : Nat} {ins : Instr} {line : String} (hp : c.instrs[p]? = some ins)
    (hk : (instr program (labelName c.labels) ins)[k]? = some line) :
    (code program c)[lineOf program c p + k]? = some line := by
  obtain ⟨hlt, rfl⟩ := List.getElem?_eq_some_iff.mp hp
  have hsplit : c.instrs = c.instrs.take p ++ c.instrs[p] :: c.instrs.drop (p + 1) := by
    rw [List.cons_getElem_drop_succ, List.take_append_drop]
  have hcode : code program c = (c.instrs.take p).flatMap (instr program (labelName c.labels)) ++
      (instr program (labelName c.labels) c.instrs[p] ++
        (c.instrs.drop (p + 1)).flatMap (instr program (labelName c.labels))) := by
    rw [code]
    nth_rewrite 1 [hsplit]
    rw [List.flatMap_append, List.flatMap_cons]
  rw [hcode, lineOf, List.getElem?_append_right (Nat.le_add_right _ _), Nat.add_sub_cancel_left,
    List.getElem?_append_left (List.getElem?_eq_some_iff.mp hk).1, hk]

/-- The only lines at the margin are those of labels. -/
lemma filter_instr (hname : ∀ l, atMargin (name l ++ ":") = true) (ins : Instr) :
    (instr program name ins).filter atMargin = ins.bound?.toList.map fun l => name l ++ ":" := by
  have hother (lines : List String) : (lines.map ("    " ++ ·)).filter atMargin = [] := by
    simp [List.filter_eq_nil_iff, atMargin, String.toList_append]
  cases ins with
  | label l => simp [instr, Instr.bound?, hname]
  | _ => exact hother _

/-- The number that digits stand for, leading zeros or not. -/
lemma threeDigits_injective : Function.Injective threeDigits := by
  have hvalue (n : Nat) : Nat.ofDigitChars 10 (threeDigits n).toList 0 = n := by
    have hzeros (k : Nat) : Nat.ofDigitChars 10 (List.replicate k '0') 0 = 0 := by
      induction k with
      | zero => rfl
      | succ k ih => simpa [List.replicate_succ, Nat.ofDigitChars] using ih
    have hdigits : (toString n).toList = Nat.toDigits 10 n := Nat.toList_repr
    rw [threeDigits, String.toList_append, String.toList_ofList, Nat.ofDigitChars_append, hzeros,
      hdigits, Nat.ofDigitChars_toDigits (by omega) (by omega)]
  intro m n h
  rw [← hvalue m, h, hvalue n]

lemma labelName_getElem {labels : List Label} (hn : labels.Nodup) {n : Nat} {l : Label}
    (h : labels[n]? = some l) : labelName labels l = "L" ++ threeDigits n := by
  obtain ⟨hlt, rfl⟩ := List.getElem?_eq_some_iff.mp h
  have hfirst : labels.idxOf? labels[n] = some n := by
    rw [List.idxOf?_eq_some_iff]
    refine ⟨hlt, rfl, fun j hj he => ?_⟩
    exact absurd ((hn.getElem_inj_iff).mp he) (Nat.ne_of_lt hj)
  rw [labelName, hfirst]

lemma atMargin_labelName (labels : List Label) (l : Label) :
    atMargin (labelName labels l ++ ":") = true := by
  unfold labelName
  split <;> simp [atMargin, String.toList_append]

/-- The label lines of a body are named from the top. -/
lemma filter_code (hn : c.labels.Nodup) : (code program c).filter atMargin =
    (List.range c.labels.length).map fun k => "L" ++ threeDigits k ++ ":" := by
  have hlines : (code program c).filter atMargin =
      c.labels.map fun l => labelName c.labels l ++ ":" := by
    rw [code, List.filter_flatMap]
    simp only [filter_instr (atMargin_labelName c.labels)]
    rw [Code.labels, ← boundLabels]
    generalize labelName (boundLabels c.instrs) = name
    induction c.instrs with
    | nil => rfl
    | cons ins rest ih => rw [List.flatMap_cons, ih, boundLabels_cons, List.map_append]
  rw [hlines]
  refine List.ext_getElem? fun k => ?_
  rw [List.getElem?_map, List.getElem?_map]
  rcases Nat.lt_or_ge k c.labels.length with hk | hk
  · have hl : c.labels[k]? = some c.labels[k] := List.getElem?_eq_getElem hk
    rw [hl, Option.map_some, labelName_getElem hn hl, List.getElem?_range hk, Option.map_some]
  · rw [List.getElem?_eq_none hk, List.getElem?_eq_none (by simpa using hk)]
    rfl

lemma isDigit_threeDigits {n : Nat} {d : Char} (hd : d ∈ (threeDigits n).toList) : d.isDigit := by
  have hdigits : (toString n).toList = Nat.toDigits 10 n := Nat.toList_repr
  rw [threeDigits, String.toList_append, String.toList_ofList, hdigits] at hd
  rcases List.mem_append.mp hd with hzero | hdigit
  · rw [List.eq_of_mem_replicate hzero]
    rfl
  · exact Nat.isDigit_of_mem_toDigits (by omega) (by omega) hdigit

/-- The name of a numbered label is not the one that stands for a label without a place. -/
lemma numbered_ne (n : Nat) : "L" ++ threeDigits n ≠ "" ∧ "L" ++ threeDigits n ≠ "L???" := by
  constructor
  · intro h
    have hchars := congrArg String.toList h
    simp [String.toList_append] at hchars
  · intro h
    have hchars := congrArg String.toList h
    rw [String.toList_append] at hchars
    have hmarks : (threeDigits n).toList = ['?', '?', '?'] := (List.cons.inj hchars).2
    have hmark : '?' ∈ (threeDigits n).toList := by simp [hmarks]
    exact absurd (isDigit_threeDigits hmark) (by decide)

/-- The lines of the body `c` that the assembler `a` ends with name its labels: from the top and
each one differently, by the ranks of their positions in the table of `a`. A jump is printed with
the name on the line that stands at the position of its label, and no label lacks a name. -/
structure Resolved (program : String) (a : Assembler) (c : Code) : Prop where
  labelLines : (code program c).filter atMargin =
    (List.range c.labels.length).map fun k => "L" ++ threeDigits k ++ ":"
  distinct : ((code program c).filter atMargin).Nodup
  ranked {n : Nat} {l : Label} (hl : a.byPosition[n]? = some l) :
    labelName c.labels l = "L" ++ threeDigits n
  position_iff (l : Label) (p : Nat) : a.position? l = some p ↔ c.instrs[p]? = some (.label l)
  operandTargets {ins : Instr} (hi : ins ∈ c.instrs) : (operands ins).map Prod.snd = ins.targets
  operandNames {p k : Nat} {ins : Instr} {text : String} {l : Label}
    (hi : c.instrs[p]? = some ins) (hk : (operands ins)[k]? = some (text, l)) :
    ∃ q n, a.position? l = some q ∧
      (code program c)[lineOf program c q]? = some ("L" ++ threeDigits n ++ ":") ∧
      (code program c)[lineOf program c p + ((opener ins).length + k)]? =
        some (text ++ ("L" ++ threeDigits n))
  named {ins : Instr} {l : Label} (hi : ins ∈ c.instrs) (hl : l ∈ ins.mentions) :
    labelName c.labels l ≠ "" ∧ labelName c.labels l ≠ "L???"

end Listing

open Listing in
/-- Whatever the assembler is told to do, if it ends with a body, the jumps in the lines of the body
go to the right places. -/
theorem assembled_lines_resolve {ops : List Op} {c : Code} (h : assemble ops = .ok c)
    (program : String) : Resolved program (Assembler.start.run ops) c := by
  obtain ⟨hinstrs, hrecorded, hbound⟩ := Assembler.recorded_of_assemble h
  have hlabels : c.labels = boundLabels (Assembler.start.run ops).code.toList := by
    rw [Code.labels, hinstrs, boundLabels]
  have hn : c.labels.Nodup := hlabels ▸ hrecorded.nodup
  have hposition (l : Label) (p : Nat) :
      (Assembler.start.run ops).position? l = some p ↔ c.instrs[p]? = some (.label l) := by
    rw [hrecorded.position_iff, hinstrs, Array.getElem?_toList]
  have hnumbered {l : Label} {p : Nat} (hp : c.instrs[p]? = some (.label l)) :
      ∃ n, labelName c.labels l = "L" ++ threeDigits n := by
    have hmem : l ∈ c.labels := mem_boundLabels.mpr ⟨p, hp⟩
    obtain ⟨n, hl⟩ := List.mem_iff_getElem?.mp hmem
    exact ⟨n, labelName_getElem hn hl⟩
  constructor
  · exact filter_code hn
  · rw [filter_code hn]
    refine List.nodup_range.map fun i j he => threeDigits_injective ?_
    simpa using he
  · intro n l hl
    rw [hrecorded.byPosition_eq, ← hlabels] at hl
    exact labelName_getElem hn hl
  · exact hposition
  · exact fun {ins} _ => map_operands ins
  · intro p k ins text l hi hk
    have htarget : l ∈ ins.targets := by
      rw [← map_operands]
      exact List.mem_map.mpr ⟨_, List.mem_of_getElem? hk, rfl⟩
    obtain ⟨q, hq⟩ := hbound ins (List.mem_of_getElem? hi) l htarget
    have hplace := (hposition l q).mp hq
    obtain ⟨n, hname⟩ := hnumbered hplace
    refine ⟨q, n, hq, ?_, getElem?_lineOf hi ?_⟩
    · exact getElem?_lineOf (k := 0) hplace (by rw [← hname]; rfl)
    · rw [instr_of_jump (List.ne_nil_of_mem htarget), List.getElem?_append_right (by omega),
        Nat.add_sub_cancel_left, List.getElem?_map, hk, ← hname]
      rfl
  · intro ins l hi hl
    have hplace : ∃ p : Nat, c.instrs[p]? = some (.label l) := by
      rcases List.mem_append.mp hl with hl | hl
      · obtain rfl := Instr.eq_label_of_bound (Option.mem_toList.mp hl)
        exact List.mem_iff_getElem?.mp hi
      · obtain ⟨p, hp⟩ := hbound ins hi l hl
        exact ⟨p, (hposition l p).mp hp⟩
    obtain ⟨p, hp⟩ := hplace
    obtain ⟨n, hname⟩ := hnumbered hp
    rw [hname]
    exact numbered_ne n

/-- A switch whose labels are bound in another order than they are made known, two of them at one
point and one of them never. -/
def switchOps : List Op :=
  [.newLabel, .newLabel, .newLabel, .newLabel, .emit (.label 3), .push 1,
    .emit (.lookupSwitch [(5, 0), (7, 3)] 2), .emit (.label 2), .emit (.label 0), .emit (.goto 3)]

theorem switchOps_lines_resolve : ∃ c, assemble switchOps = .ok c ∧
    Listing.code "p" c = ["L000:", "    lookupswitch", "      5 : L002", "      7 : L000",
      "      default : L001", "L001:", "L002:", "    goto L000"] ∧
    Listing.Resolved "p" (Assembler.start.run switchOps) c :=
  ⟨_, rfl, by decide +kernel, assembled_lines_resolve rfl "p"⟩

end PascalJvm.Jvm
