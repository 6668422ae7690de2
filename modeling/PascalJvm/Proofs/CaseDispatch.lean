import Mathlib.Tactic
import PascalJvm.Proofs.EmissionFaults
import PascalJvm.Proofs.FreshLabels
import PascalJvm.Proofs.StatementRuns

/-!
# Dispatch of case statements

The table of a case statement has the constants of all branches in ascending order, and a
constant belongs to the last branch that lists it. Under the policy that rejects repetitions the
generation fails at the first constant that is listed again, and at no other. Control goes from
the table to the body of one branch, stays in it, and goes from its end past the statement.

The bodies are arbitrary: what is said of them is where control can go, not what they compute.
-/
namespace PascalJvm

namespace Emit

open Jvm Typed

namespace Gen

variable {α β : Type} {s : Supply} {e : EmitError}

theorem bind_error {x : Gen α} {f : α → Gen β} : (x >>= f) s = .error e ↔
    x s = .error e ∨ ∃ a u, x s = .ok (a, u) ∧ f a u = .error e := by
  change (x s >>= fun r => f r.1 r.2) = .error e ↔ _
  rcases x s with e' | ⟨a, u⟩ <;> simp [bind, Except.bind]

theorem pure_error {a : α} : (pure a : Gen α) s = .error e ↔ False := by
  change Except.ok (a, s) = .error e ↔ _
  simp

theorem lift_error {x : Except EmitError α} : (liftM x : Gen α) s = .error e ↔ x = .error e := by
  change (x >>= fun a => pure (a, s)) = .error e ↔ _
  cases x <;> simp [bind, Except.bind, pure, Except.pure]

end Gen

section Faults

/-- Any error but a repeated constant. -/
def EmitError.NoClash (e : EmitError) : Prop := ∀ v, e ≠ .duplicateConstant v

lemma loadObject_noClash (v : Symbol) : FailsOnly EmitError.NoClash (loadObject v) := by
  obtain ⟨name, storage, ty⟩ := v
  cases storage with
  | static => exact .pure _
  | slot => exact .pure _
  | cell => exact .throw (by simp [EmitError.NoClash])

lemma invocation_noClash {callee : Signature} {count : Nat}
    {push : Gen (List Instr × List (Option Nat))} {back : List (Option Nat) → Gen (List Instr)}
    (hpush : FailsOnly EmitError.NoClash push)
    (hback : ∀ cells, FailsOnly EmitError.NoClash (back cells)) :
    FailsOnly EmitError.NoClash (invocation callee count push back) := by
  by_cases hcount : count = callee.params.length
  · exact invocation_failsOnly hcount hpush hback
  · unfold invocation
    rw [if_pos hcount]
    exact .bind (.throw (by simp [EmitError.NoClash])) fun _ =>
      .releasing (.bind hpush fun _ => .bind (hback _) fun _ => .pure _)

mutual

/-- Constants are repeated in statements only, so this holds of every tree. -/
theorem expr_noClash : (e : Expr) → FailsOnly EmitError.NoClash (expr e)
  | .int _ _ => .pure _
  | .real _ _ => .pure _
  | .text _ _ => .pure _
  | .read _ place _ => by
    rw [expr]
    exact loadVia_failsOnly fun _ => path_noClash place
  | .call _ callee args => by
    rw [expr]
    exact invocation_noClash (pushArgs_noClash callee.params args)
      fun cells => copyBack_noClash cells args
  | .unary _ .neg x => by
    rw [expr]
    exact .bind (expr_noClash x) fun _ => .pure _
  | .unary _ .not x => by
    rw [expr]
    exact .bind (expr_noClash x) fun _ => .pure _
  | .binary _ op a b => by
    rw [expr]
    split
    · exact relation_failsOnly (expr_noClash a) (expr_noClash b)
    · exact arithmetic_failsOnly (expr_noClash a) (expr_noClash b)

theorem path_noClash : (p : Place) → FailsOnly EmitError.NoClash (path p)
  | .root v => by
    rw [path]
    exact loadObject_noClash v
  | .field base _ _ _ => by
    rw [path]
    exact .bind (path_noClash base) fun _ => .pure _
  | .element base index _ _ => by
    rw [path]
    exact .bind (path_noClash base) fun _ => .bind (expr_noClash index) fun _ => .pure _

theorem address_noClash : (p : Place) → FailsOnly EmitError.NoClash (address p)
  | .root v => by
    rw [address]
    exact .pure _
  | .field base _ _ _ => by
    rw [address]
    exact path_noClash base
  | .element base index _ _ => by
    rw [address]
    exact .bind (path_noClash base) fun _ => .bind (expr_noClash index) fun _ => .pure _

theorem pushArgs_noClash : (params : List Passing) → (args : List Arg) →
    FailsOnly EmitError.NoClash (pushArgs params args)
  | [], _ => by
    simp only [pushArgs]
    exact .pure _
  | _ :: _, [] => by
    simp only [pushArgs]
    exact .pure _
  | p :: params, .value e :: args => by
    rw [pushArgs]
    exact .bind (expr_noClash e) fun _ => .bind (pushArgs_noClash params args) fun _ => .pure _
  | p :: params, .ref place ty :: args => by
    rw [pushArgs]
    have hload : FailsOnly EmitError.NoClash (loadVia (path place) ty place) :=
      loadVia_failsOnly fun _ => path_noClash place
    exact .bind (passRef_failsOnly hload) fun _ => .bind (pushArgs_noClash params args) fun _ =>
      .pure _

theorem copyBack_noClash : (cells : List (Option Nat)) → (args : List Arg) →
    FailsOnly EmitError.NoClash (copyBack cells args)
  | [], _ => by
    simp only [copyBack]
    exact .pure _
  | _ :: _, [] => by
    simp only [copyBack]
    exact .pure _
  | some _ :: cells, .value _ :: args => by
    rw [copyBack]
    · exact copyBack_noClash cells args
    · simp
  | none :: cells, .value _ :: args => by
    rw [copyBack]
    · exact copyBack_noClash cells args
    · simp
  | none :: cells, .ref _ _ :: args => by
    rw [copyBack]
    · exact copyBack_noClash cells args
    · simp
  | some _ :: cells, .ref place _ :: args => by
    rw [copyBack]
    exact .bind (address_noClash place) fun _ => .bind (copyBack_noClash cells args) fun _ =>
      .pure _

end

end Faults

section Constants

variable {policy : CasePolicy}

/-- The first value that is among `seen` or among the values before it. -/
def firstRepeat (seen : List Int32) : List Int32 → Option Int32
  | [] => none
  | v :: rest => if v ∈ seen then some v else firstRepeat (v :: seen) rest

lemma firstRepeat_eq_none_iff {seen vs : List Int32} :
    firstRepeat seen vs = none ↔ vs.Nodup ∧ seen.Disjoint vs := by
  induction vs generalizing seen with
  | nil => simp [firstRepeat]
  | cons v rest ih =>
    rw [firstRepeat]
    split_ifs with hv
    · simp [hv]
    · simp only [ih, List.disjoint_cons_left, List.disjoint_cons_right, List.nodup_cons]
      tauto

lemma firstRepeat_append {seen vs ws : List Int32} :
    firstRepeat seen (vs ++ ws) =
      (firstRepeat seen vs).or (firstRepeat (vs.reverse ++ seen) ws) := by
  induction vs generalizing seen with
  | nil => rfl
  | cons v rest ih =>
    simp only [List.cons_append, firstRepeat]
    split_ifs with hv
    · rfl
    · simp [ih]

lemma firstRepeat_eq_some_iff {vs : List Int32} {v : Int32} : firstRepeat [] vs = some v ↔
    ∃ front back, vs = front ++ v :: back ∧ v ∈ front ∧ front.Nodup := by
  constructor
  · intro h
    induction vs using List.reverseRecOn with
    | nil => cases h
    | append_singleton init w ih =>
      rw [firstRepeat_append, List.append_nil] at h
      cases hinit : firstRepeat [] init with
      | some u =>
        rw [hinit, Option.some_or] at h
        obtain ⟨front, back, rfl, hv, hfront⟩ := ih (by rw [hinit, h])
        exact ⟨front, back ++ [w], by simp, hv, hfront⟩
      | none =>
        rw [hinit, Option.none_or] at h
        simp only [firstRepeat, List.mem_reverse] at h
        split_ifs at h with hw
        cases h
        exact ⟨init, [], rfl, hw, (firstRepeat_eq_none_iff.mp hinit).1⟩
  · rintro ⟨front, back, rfl, hv, hfront⟩
    have hnone : firstRepeat [] front = none := firstRepeat_eq_none_iff.mpr ⟨hfront, by simp⟩
    rw [firstRepeat_append, hnone, Option.none_or, firstRepeat, if_pos (by simpa using hv)]

/-- The constant at which the policy stops the generation. -/
def clash (policy : CasePolicy) (seen vs : List Int32) : Option Int32 :=
  if policy = .reject then firstRepeat seen vs else none

lemma clash_eq_some_iff {vs : List Int32} {v : Int32} : clash policy [] vs = some v ↔
    policy = .reject ∧ ∃ front back, vs = front ++ v :: back ∧ v ∈ front ∧ front.Nodup := by
  rw [clash]
  split_ifs with hp
  · simp [hp, firstRepeat_eq_some_iff]
  · simp [hp]

lemma exists_clash_iff {vs : List Int32} :
    (∃ v, clash policy [] vs = some v) ↔ policy = .reject ∧ ¬ vs.Nodup := by
  rw [← Option.isSome_iff_exists, ← Option.ne_none_iff_isSome, clash]
  split_ifs with hp
  · simp [hp, firstRepeat_eq_none_iff]
  · simp [hp]

lemma clash_cons {seen rest : List Int32} {v : Int32} : clash policy seen (v :: rest) =
    if policy = .reject ∧ v ∈ seen then some v else clash policy (v :: seen) rest := by
  simp only [clash, firstRepeat]
  split_ifs <;> tauto

lemma clash_append {seen vs ws : List Int32} : clash policy seen (vs ++ ws) =
    (clash policy seen vs).or (clash policy (vs.reverse ++ seen) ws) := by
  unfold clash
  split_ifs
  · exact firstRepeat_append
  · rfl

/-- The constants that the table knows. -/
def CaseTable.Knows (table : CaseTable) (seen : List Int32) : Prop :=
  ∀ v, (table.lookup v).isSome ↔ v ∈ seen

lemma CaseTable.knows_nil : CaseTable.Knows [] [] := by simp [Knows]

lemma CaseTable.Knows.addBranch {table table' : CaseTable} {seen values : List Int32} {l : Label}
    (h : table.Knows seen) (hok : table.addBranch policy l values = .ok table') :
    table'.Knows (values.reverse ++ seen) := by
  intro v
  rw [lookup_addBranch hok, List.mem_append, List.mem_reverse, ← h v]
  split_ifs with hv <;> simp [hv]

lemma addBranch_eq_error_iff {table : CaseTable} {seen values : List Int32} {l : Label}
    {e : EmitError} (h : table.Knows seen) : table.addBranch policy l values = .error e ↔
      ∃ v, clash policy seen values = some v ∧ e = .duplicateConstant v := by
  induction values generalizing table seen with
  | nil => simp [CaseTable.addBranch, clash, firstRepeat]
  | cons v rest ih =>
    have hput : (table.put v l).Knows (v :: seen) := by
      intro i
      rw [CaseTable.lookup_put, List.mem_cons, ← h i]
      split_ifs with hi <;> simp [hi]
    simp only [CaseTable.addBranch, clash_cons, Bool.and_eq_true, decide_eq_true_iff, h v]
    split_ifs with hclash
    · simp [eq_comm]
    · exact ih hput

/-- The table of all branches fails to come out exactly when there is a clash. -/
lemma caseTable_eq_error_iff {table : CaseTable} {seen : List Int32} {values : List (List Int32)}
    {s : Supply} {e : EmitError} (h : table.Knows seen) (hne : ∀ vs ∈ values, vs ≠ []) :
    caseTable policy table values s = .error e ↔
      ∃ v, clash policy seen values.flatten = some v ∧ e = .duplicateConstant v := by
  induction values generalizing table seen s with
  | nil => simp [caseTable, Gen.pure_error, clash, firstRepeat]
  | cons vs rest ih =>
    obtain ⟨hvs, hrest⟩ := List.forall_mem_cons.mp hne
    have hstart : caseTable policy table (vs :: rest) s = .error e ↔
        table.addBranch policy s.label vs = .error e ∨ ∃ table',
          table.addBranch policy s.label vs = .ok table' ∧
            caseTable policy table' rest { s with label := s.label + 1 } = .error e := by
      rw [caseTable, if_neg (by simpa using hvs)]
      simp [Gen.bind_error, Gen.lift_error, Gen.lift_ok, Gen.pure_error, freshLabel,
        -bind_pure_comp]
    rw [hstart, List.flatten_cons, clash_append]
    cases hbranch : table.addBranch policy s.label vs with
    | error e' =>
      obtain ⟨v, hv, rfl⟩ := (addBranch_eq_error_iff h).mp hbranch
      simp [hv, eq_comm]
    | ok table' =>
      have hnone : clash policy seen vs = none := by
        by_contra hsome
        obtain ⟨v, hv⟩ := Option.ne_none_iff_exists'.mp hsome
        rw [(addBranch_eq_error_iff h).mpr ⟨v, hv, rfl⟩] at hbranch
        cases hbranch
      simp [hnone, ih (h.addBranch hbranch) hrest]

section

variable {branches : List (List Int32 × Stmt)} {otherwise : Option Stmt}

lemma arms_fail {bad : EmitError → Prop} {done : Label} {labels : List Label}
    (h : ∀ branch ∈ branches, FailsOnly bad (stmt policy branch.2)) :
    FailsOnly bad (arms policy done labels branches) := by
  induction branches generalizing labels with
  | nil => cases labels <;> exact .pure _
  | cons branch rest ih =>
    obtain ⟨hbranch, hrest⟩ := List.forall_mem_cons.mp h
    cases labels with
    | nil => exact .pure _
    | cons l labels =>
      rw [arms]
      exact .bind hbranch fun _ => .bind (ih hrest) fun _ => .pure _

/-- If the bodies of a case statement come out, it fails for a clash or for its selector. -/
lemma caseOf_failsOnly (selector : Expr) (hne : ∀ branch ∈ branches, branch.1 ≠ [])
    (hbodies : ∀ branch ∈ branches, ∀ s e, stmt policy branch.2 s ≠ .error e)
    (hother : ∀ c ∈ otherwise, ∀ s e, stmt policy c s ≠ .error e) :
    FailsOnly (fun e => (∃ v, clash policy [] (branches.flatMap Prod.fst) = some v ∧
        e = .duplicateConstant v) ∨ ∃ u, expr selector u = .error e)
      (stmt policy (.caseOf selector branches otherwise)) := by
  rw [stmt]
  refine entering_failsOnly (.bind .freshLabel fun _ => .bind ?_ fun _ =>
    .bind defaultLabel_failsOnly fun _ => .bind (fun u e he => .inr ⟨u, he⟩) fun _ =>
    .bind (arms_fail fun branch hbranch s e he => (hbodies branch hbranch s e he).elim) fun _ =>
    .bind ?_ fun _ => .pure _)
  · intro s e he
    rw [List.flatMap_def]
    exact .inl ((caseTable_eq_error_iff CaseTable.knows_nil (by simpa using hne)).mp he)
  · cases otherwise with
    | none => exact .pure _
    | some c =>
      rw [optional]
      exact fun s e he => (hother c rfl s e he).elim

lemma caseOf_of_clash (selector : Expr) (hne : ∀ branch ∈ branches, branch.1 ≠ []) {v : Int32}
    (hv : clash policy [] (branches.flatMap Prod.fst) = some v) (s : Supply) :
    stmt policy (.caseOf selector branches otherwise) s = .error (.duplicateConstant v) := by
  have htable (s : Supply) : caseTable policy [] (branches.map Prod.fst) s =
      .error (.duplicateConstant v) := by
    rw [caseTable_eq_error_iff CaseTable.knows_nil (by simpa using hne), ← List.flatMap_def]
    exact ⟨v, hv, rfl⟩
  rw [stmt, entering]
  simp [Gen.bind_error, htable, freshLabel, -bind_pure_comp]

end

end Constants

section Order

variable {policy : CasePolicy}

/-- Ascending by constant. -/
def CaseTable.Ascending (table : CaseTable) : Prop := (table.map Prod.fst).Pairwise (· < ·)

lemma CaseTable.ascending_nil : CaseTable.Ascending [] := .nil

lemma CaseTable.mem_keys_put {v value : Int32} {l : Label} {table : CaseTable} :
    v ∈ (table.put value l).map Prod.fst ↔ v = value ∨ v ∈ table.map Prod.fst := by
  induction table with
  | nil => simp [CaseTable.put]
  | cons entry rest ih =>
    obtain ⟨u, m⟩ := entry
    rw [CaseTable.put]
    split_ifs with hlt heq <;> simp only [List.map_cons, List.mem_cons, ih] <;> grind

lemma CaseTable.Ascending.put {table : CaseTable} (h : table.Ascending) (value : Int32)
    (l : Label) : (table.put value l).Ascending := by
  induction table with
  | nil => simp [CaseTable.put, Ascending]
  | cons entry rest ih =>
    obtain ⟨v, m⟩ := entry
    obtain ⟨hv, hrest⟩ := List.pairwise_cons.mp h
    rw [CaseTable.put]
    split_ifs with hlt heq
    · refine List.pairwise_cons.mpr ⟨fun w hw => ?_, h⟩
      rcases List.mem_cons.mp hw with rfl | hw
      · exact hlt
      · exact Int32.lt_trans hlt (hv w hw)
    · exact heq ▸ h
    · refine List.pairwise_cons.mpr ⟨fun w hw => ?_, ih hrest⟩
      rcases mem_keys_put.mp hw with rfl | hw
      · grind
      · exact hv w hw

lemma CaseTable.Ascending.addBranch {table table' : CaseTable} (h : table.Ascending) {l : Label}
    {values : List Int32} (hok : table.addBranch policy l values = .ok table') :
    table'.Ascending := by
  induction values generalizing table with
  | nil =>
    cases hok
    exact h
  | cons v rest ih =>
    simp only [CaseTable.addBranch] at hok
    split_ifs at hok
    exact ih (h.put v l) hok

lemma caseTable_ascending {table table' : CaseTable} {values : List (List Int32)}
    {labels : List Label} {s t : Supply} (h : table.Ascending)
    (hok : caseTable policy table values s = .ok ((labels, table'), t)) : table'.Ascending := by
  induction values generalizing table labels s with
  | nil =>
    simp only [caseTable, Gen.pure_ok, Prod.mk.injEq] at hok
    obtain ⟨⟨-, rfl⟩, -⟩ := hok
    exact h
  | cons vs rest ih =>
    obtain ⟨-, branch, labels', hbranch, hrest, rfl⟩ := caseTable_cons_ok.mp hok
    exact ih (h.addBranch hbranch) hrest

lemma CaseTable.Knows.caseTable {table table' : CaseTable} {seen : List Int32}
    {values : List (List Int32)} {labels : List Label} {s t : Supply} (h : table.Knows seen)
    (hok : caseTable policy table values s = .ok ((labels, table'), t)) :
    table'.Knows (values.flatten ++ seen) := by
  induction values generalizing table labels seen s with
  | nil =>
    simp only [Emit.caseTable, Gen.pure_ok, Prod.mk.injEq] at hok
    obtain ⟨⟨-, rfl⟩, -⟩ := hok
    exact h
  | cons vs rest ih =>
    obtain ⟨-, branch, labels', hbranch, hrest, rfl⟩ := caseTable_cons_ok.mp hok
    intro v
    rw [ih (h.addBranch hbranch) hrest v]
    simp only [List.mem_append, List.mem_reverse, List.flatten_cons]
    tauto

lemma CaseTable.Knows.mem_keys {table : CaseTable} {seen : List Int32} (h : table.Knows seen)
    (v : Int32) : v ∈ table.map Prod.fst ↔ v ∈ seen := by
  rw [← h v, List.lookup_isSome_iff]
  simp

end Order

end Emit

namespace Run

open Jvm Typed

variable {policy : Emit.CasePolicy} {code : List Instr}

/-- Control that is in a block of generated code stays in it until it comes to its end. -/
lemma edge_within {block : List Instr} {s t : Emit.Supply} {p i j : Nat}
    (hn : (boundLabels code).Nodup) (hspan : Emit.Span s t block) (hat : CodeAt code p block)
    (hp : p ≤ i) (hi : i < p + block.length) (he : Edge code i j) :
    p ≤ j ∧ j ≤ p + block.length := by
  have hat' := hat (i - p) block[i - p] (List.getElem?_eq_getElem (by omega))
  rw [Nat.add_sub_cancel' hp] at hat'
  cases he with
  | next => omega
  | @jump _ ins l hins hl hj =>
    obtain rfl : ins = block[i - p] := Option.some.inj (hins.symm.trans hat')
    have hjump := hspan.jumps (List.mem_flatMap.mpr ⟨_, List.getElem_mem _, hl⟩)
    have hbound : l ∈ boundLabels block := by
      rw [← List.count_pos_iff, hspan.bound, if_pos hjump]
      exact one_pos
    obtain ⟨m, hm⟩ := mem_boundLabels.mp hbound
    obtain rfl := label_place_unique hn (hat m _ hm) hj
    have hlt := (List.getElem?_eq_some_iff.mp hm).1
    omega

/-- From the table at `q`, control goes for the value `v` to the label at `first` and on to the
code of the statement `c`, which it leaves only at the end; from there it goes to `last`. -/
structure Enters (policy : Emit.CasePolicy) (code : List Instr) (q last : Nat) (v : Int32)
    (c : Stmt) (first : Nat) (block : List Instr) : Prop where
  generated : ∃ s ops t, Emit.stmt policy c s = .ok (ops, t) ∧ emitted ops = block
  between : q < first ∧ first + 1 + block.length ≤ last
  body : CodeAt code (first + 1) block
  selects (host : Host) (st : List Value) (σ : Store) :
    step host code ⟨q, .int v :: st, σ⟩ = .ok ⟨first, st, σ⟩
  begins (host : Host) (s : State) : step host code ⟨first, s⟩ = .ok ⟨first + 1, s⟩
  stays {i j : Nat} (hi : first + 1 ≤ i) (hi' : i < first + 1 + block.length) (he : Edge code i j) :
    first + 1 ≤ j ∧ j ≤ first + 1 + block.length
  leaves (host : Host) (s : State) : first + 1 + block.length = last ∨
    step host code ⟨first + 1 + block.length, s⟩ = .ok ⟨last, s⟩

/-- The table at `q` dispatches over the branches of a case statement that ends at `finish`:
the last branch that lists the value, or else the default part, or else none. -/
def Dispatches (policy : Emit.CasePolicy) (code : List Instr) (q finish : Nat)
    (branches : List (List Int32 × Stmt)) (otherwise : Option Stmt) : Prop :=
  ∃ last, last + 1 = finish ∧
    (∀ (host : Host) s, step host code ⟨last, s⟩ = .ok ⟨finish, s⟩) ∧
    ∀ v, match (lastListing v branches).or otherwise with
      | some c => ∃ first block, Enters policy code q last v c first block
      | none => ∀ (host : Host) st σ, step host code ⟨q, .int v :: st, σ⟩ = .ok ⟨last, st, σ⟩

/-- Each branch has its label before it and a jump to the end after it. -/
lemma arms_at {done : Label} {labels : List Label} {branches : List (List Int32 × Stmt)}
    {s t : Emit.Supply} {ops : List Op} {p : Nat}
    (h : Emit.arms policy done labels branches s = .ok (ops, t))
    (hat : CodeAt code p (emitted ops)) {l : Label} {values : List Int32} {c : Stmt}
    (hmem : (l, values, c) ∈ labels.zip branches) :
    ∃ q u body u', p ≤ q ∧ code[q]? = some (.label l) ∧ Emit.stmt policy c u = .ok (body, u') ∧
      CodeAt code (q + 1) (emitted body) ∧
      code[q + 1 + (emitted body).length]? = some (.goto done) ∧
      q + 1 + (emitted body).length < p + (emitted ops).length := by
  induction branches generalizing labels s ops p with
  | nil => simp at hmem
  | cons branch rest ih =>
    obtain ⟨vs, d⟩ := branch
    cases labels with
    | nil => simp at hmem
    | cons m labels =>
      simp only [Emit.arms, Emit.Gen.bind_ok, Emit.Gen.pure_ok] at h
      obtain ⟨body, u, hbody, more, u', hmore, rfl, rfl⟩ := h
      simp only [emitted_append, Emit.emitted_asm, List.append_assoc, List.cons_append,
        List.nil_append, codeAt_append, codeAt_cons] at hat
      obtain ⟨hlabel, hbodyAt, hgoto, hmoreAt⟩ := hat
      rw [List.zip_cons_cons, List.mem_cons] at hmem
      rcases hmem with heq | hmem
      · cases heq
        exact ⟨p, s, body, u, le_refl _, hlabel, hbody, hbodyAt, hgoto, by simp; omega⟩
      · obtain ⟨q, v, body', v', hq, hl, hstmt, hcode, hdone, hlt⟩ := ih hmore hmoreAt hmem
        exact ⟨q, v, body', v', by omega, hl, hstmt, hcode, hdone, by simp; omega⟩

/-- The table, the branches, the default part and the end of a case statement. -/
lemma dispatches_of_codeAt {branches : List (List Int32 × Stmt)} {otherwise : Option Stmt}
    {labels : List Label} {table : Emit.CaseTable} {default done : Label} {opsA opsD : List Op}
    {s₁ t₁ t₂ s₃ t₃ s₄ t₄ : Emit.Supply} {q : Nat} (hn : (boundLabels code).Nodup)
    (htable : Emit.caseTable policy [] (branches.map Prod.fst) s₁ = .ok ((labels, table), t₁))
    (hdefault : Emit.defaultLabel done otherwise.isSome t₁ = .ok (default, t₂))
    (harms : Emit.arms policy done labels branches s₃ = .ok (opsA, t₃))
    (hD : Emit.optional policy otherwise s₄ = .ok (opsD, t₄)) {start : List Instr}
    (hstart : start = if otherwise.isSome then [.label default] else [])
    (hat : CodeAt code q (.lookupSwitch table default :: (emitted opsA ++ start ++
      emitted opsD ++ [.label done]))) :
    Dispatches policy code q
      (q + 1 + (emitted opsA).length + start.length + (emitted opsD).length + 1)
      branches otherwise := by
  simp only [codeAt_cons, codeAt_append, codeAt_nil, and_true, List.length_append,
    ← Nat.add_assoc] at hat
  obtain ⟨hswitch, ⟨⟨harmsAt, hstartAt⟩, hDAt⟩, hdone⟩ := hat
  obtain ⟨hdefault, -⟩ := Emit.defaultLabel_ok.mp hdefault
  refine ⟨_, rfl, fun host s => step_label hdone, fun v => ?_⟩
  rcases caseTable_lookup htable v with ⟨hlookup, hnone⟩ | ⟨l, values, c, hmem, hlookup, hsome⟩
  · have hentry : (table.lookup v).getD default = default := by rw [hlookup]; rfl
    rw [hnone, Option.none_or]
    cases otherwise with
    | none =>
      obtain rfl : default = done := hdefault
      exact fun host st σ => step_lookupSwitch hn hswitch (hentry.symm ▸ hdone)
    | some c =>
      obtain rfl : start = [.label default] := hstart
      have hlabel := codeAt_singleton.mp hstartAt
      have hspan := (Emit.stmt_spans policy c _ _ _ hD).1
      refine ⟨_, _, ⟨s₄, opsD, t₄, hD, rfl⟩, ⟨by omega, le_refl _⟩, hDAt, ?_, ?_, ?_, ?_⟩
      · exact fun host st σ => step_lookupSwitch hn hswitch (hentry.symm ▸ hlabel)
      · exact fun host s => step_label hlabel
      · exact fun hi hi' he => edge_within hn hspan hDAt hi hi' he
      · exact fun host s => .inl rfl
  · obtain ⟨first, u, body, u', hfirst, hlabel, hbody, hbodyAt, hgoto, hlt⟩ :=
      arms_at harms harmsAt hmem
    have hspan := (Emit.stmt_spans policy c _ _ _ hbody).1
    have hentry : (table.lookup v).getD default = l := by rw [hlookup]; rfl
    rw [hsome, Option.some_or]
    refine ⟨_, _, ⟨u, body, u', hbody, rfl⟩, ⟨by omega, by omega⟩, hbodyAt, ?_, ?_, ?_, ?_⟩
    · exact fun host st σ => step_lookupSwitch hn hswitch (hentry.symm ▸ hlabel)
    · exact fun host s => step_label hlabel
    · exact fun hi hi' he => edge_within hn hspan hbodyAt hi hi' he
    · exact fun host s => .inr (step_goto hn hgoto hdone)

/-- What the code of a case statement consists of. -/
lemma caseOf_layout {selector : Expr} {branches : List (List Int32 × Stmt)}
    {otherwise : Option Stmt} {s t : Emit.Supply} {ops : List Op}
    (h : Emit.stmt policy (.caseOf selector branches otherwise) s = .ok (ops, t)) :
    ∃ codeSelector table default rest u u', Emit.expr selector u = .ok (codeSelector, u') ∧
      emitted ops = codeSelector ++ .lookupSwitch table default :: rest ∧
      (table.map Prod.fst).Pairwise (· < ·) ∧
      (∀ v, v ∈ table.map Prod.fst ↔ v ∈ branches.flatMap Prod.fst) ∧
      ∀ (code : List Instr) (p : Nat), (boundLabels code).Nodup → CodeAt code p (emitted ops) →
        Dispatches policy code (p + codeSelector.length) (p + (emitted ops).length) branches
          otherwise := by
  rw [Emit.stmt] at h
  obtain ⟨ops', h', rfl⟩ := Emit.entering_ok.mp h
  simp only [Emit.Gen.bind_ok, Emit.Gen.pure_ok, Prod.exists] at h'
  obtain ⟨done, s₁, -, labels, table, t₁, htable, default, t₂, hdefault, codeC, t₃, hC, opsA, t₄,
    hA, opsD, t₅, hD, rfl, rfl⟩ := h'
  have hknows := (Emit.CaseTable.knows_nil.caseTable htable).mem_keys
  rw [List.append_nil, ← List.flatMap_def] at hknows
  simp only [emitted_cons_enter, emitted_append, Emit.emitted_asm, List.append_assoc,
    List.singleton_append]
  refine ⟨codeC, table, default, _, t₂, t₃, hC, rfl,
    Emit.caseTable_ascending Emit.CaseTable.ascending_nil htable, hknows, fun code p hn hat => ?_⟩
  have hdispatch := dispatches_of_codeAt hn htable hdefault hA hD rfl
    (by simpa only [List.append_assoc] using (codeAt_append.mp hat).2)
  convert hdispatch using 1
  simp
  omega

/-- A case statement fails at the first constant that is listed again if the policy rejects that,
and otherwise only if its selector fails. Where it comes out, its table has exactly the constants,
in ascending order, and dispatches to the last branch that lists the value. -/
theorem case_dispatches_to_last_listing (policy : Emit.CasePolicy) (selector : Expr)
    (branches : List (List Int32 × Stmt)) (otherwise : Option Stmt)
    (hconstants : ∀ branch ∈ branches, branch.1 ≠ [])
    (hbodies : ∀ branch ∈ branches, ∀ s e, Emit.stmt policy branch.2 s ≠ .error e)
    (hotherwise : ∀ c ∈ otherwise, ∀ s e, Emit.stmt policy c s ≠ .error e) (s : Emit.Supply) :
    let listed := branches.flatMap Prod.fst
    let result := Emit.stmt policy (.caseOf selector branches otherwise) s
    (∀ v, result = .error (.duplicateConstant v) ↔ policy = .reject ∧
      ∃ front back, listed = front ++ v :: back ∧ v ∈ front ∧ front.Nodup) ∧
    ((∃ v, result = .error (.duplicateConstant v)) ↔ policy = .reject ∧ ¬ listed.Nodup) ∧
    (∀ e, result = .error e →
      (∃ v, e = .duplicateConstant v) ∨ ∃ u, Emit.expr selector u = .error e) ∧
    ∀ ops t, result = .ok (ops, t) → ∃ codeSelector table default rest u u',
      Emit.expr selector u = .ok (codeSelector, u') ∧
      emitted ops = codeSelector ++ .lookupSwitch table default :: rest ∧
      (table.map Prod.fst).Pairwise (· < ·) ∧
      (∀ v, v ∈ table.map Prod.fst ↔ v ∈ listed) ∧
      ∀ (code : List Instr) (p : Nat), (boundLabels code).Nodup → CodeAt code p (emitted ops) →
        Dispatches policy code (p + codeSelector.length) (p + (emitted ops).length) branches
          otherwise := by
  intro listed result
  have hfails := Emit.caseOf_failsOnly selector hconstants hbodies hotherwise s
  have hclash (v : Int32) : result = .error (.duplicateConstant v) ↔
      Emit.clash policy [] listed = some v := by
    refine ⟨fun h => ?_, fun h => Emit.caseOf_of_clash selector hconstants h s⟩
    rcases hfails _ h with ⟨w, hw, heq⟩ | ⟨u, hu⟩
    · cases heq
      exact hw
    · exact absurd rfl (Emit.expr_noClash selector u _ hu v)
  refine ⟨fun v => (hclash v).trans Emit.clash_eq_some_iff, ?_, ?_, ?_⟩
  · simp only [hclash]
    exact Emit.exists_clash_iff
  · intro e h
    rcases hfails e h with ⟨v, -, hv⟩ | hselector
    · exact .inl ⟨v, hv⟩
    · exact .inr hselector
  · exact fun ops t h => caseOf_layout h

/-- Branches that overlap: a constant listed by two of them, one listed twice by the same, and
one branch that is left with none. -/
def overlapping : List (List Int32 × Stmt) :=
  [([1, -3], .compound []), ([1], .empty), ([-3, 7, 7], .compound [.empty])]

lemma overlapping_generates (policy : Emit.CasePolicy) :
    ∀ branch ∈ overlapping, ∀ s e, Emit.stmt policy branch.2 s ≠ .error e := by
  intro branch hbranch s e h
  simp only [overlapping, List.mem_cons, List.not_mem_nil, or_false] at hbranch
  rcases hbranch with rfl | rfl | rfl <;> cases h

theorem overlapping_case_dispatches :
    Emit.stmt .reject (.caseOf (.int (.basic .integer) 1) overlapping none) (.startingAt 0) =
      .error (.duplicateConstant 1) ∧
    ∃ ops t, Emit.stmt .lastWins (.caseOf (.int (.basic .integer) 1) overlapping none)
      (.startingAt 0) = .ok (ops, t) ∧
      Dispatches .lastWins (emitted ops) 1 (emitted ops).length overlapping none := by
  have hconstants : ∀ branch ∈ overlapping, branch.1 ≠ [] := by decide
  have hrejected := case_dispatches_to_last_listing .reject (.int (.basic .integer) 1) overlapping
    none hconstants (overlapping_generates .reject) (by simp) (.startingAt 0)
  obtain ⟨-, hclash, hselector, hdispatch⟩ := case_dispatches_to_last_listing .lastWins
    (.int (.basic .integer) 1) overlapping none hconstants (overlapping_generates .lastWins)
    (by simp) (.startingAt 0)
  refine ⟨(hrejected.1 1).mpr ⟨rfl, [1, -3], [-3, 7, 7], rfl, by decide, by decide⟩, ?_⟩
  cases hresult : Emit.stmt .lastWins (.caseOf (.int (.basic .integer) 1) overlapping none)
      (.startingAt 0) with
  | error e =>
    rcases hselector e hresult with ⟨v, rfl⟩ | ⟨u, hu⟩
    · exact absurd (hclash.mp ⟨v, hresult⟩).1 (by decide)
    · cases hu
  | ok r =>
    obtain ⟨codeSelector, table, default, rest, u, u', hcode, -, -, -, hdispatches⟩ :=
      hdispatch r.1 r.2 hresult
    cases hcode
    have hn : (boundLabels (emitted r.1)).Nodup := (Emit.stmt_spans _ _ _ _ _ hresult).1.nodup
    exact ⟨r.1, r.2, rfl, by simpa using hdispatches (emitted r.1) 0 hn codeAt_self⟩

end Run
end PascalJvm
