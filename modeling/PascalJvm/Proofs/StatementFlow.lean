import Mathlib.Tactic
import PascalJvm.Proofs.EmissionFaults
import PascalJvm.Proofs.ExpressionFlow

/-!
# Frames through the code of statements

The code of a well-typed statement takes every frame in which the variables are set to itself.
All labels of a statement have this frame.
-/
namespace PascalJvm.Emit

open Jvm Typed

section Jumps

variable {ctx : Context} {frames : Label → Frame} {l m : Label} {F G : Frame} {stack : List Word}
  {L : Nat → Option Word}

lemma flow_label (h : frames l = F) : Flow ctx frames [] (.live F) [.label l] (.live F) :=
  ⟨_, .label h.ge, show frames l ≤ F from h.le⟩

lemma flow_land (h : frames l = F) :
    Flow ctx frames [] (.dead F.stack.length) [.label l] (.live F) :=
  ⟨_, .land (.inr (by rw [h])), show frames l ≤ F from h.le⟩

lemma flow_goto (h : frames l = F) :
    Flow ctx frames [] (.live F) [.goto l] (.dead F.stack.length) :=
  ⟨_, .stop rfl rfl (by simp [Instr.targets, h]), le_refl (Point.dead _)⟩

lemma flow_ifZero {r : Relation} (h : frames l = ⟨stack, L⟩) :
    Flow ctx frames [] (.live ⟨.int :: stack, L⟩) [.ifZero r l] (.live ⟨stack, L⟩) :=
  ⟨_, .next (by simp) rfl rfl (by simp [Instr.targets, h]), le_refl (Point.live _)⟩

lemma flow_ifCompare {r : Relation} (h : frames l = ⟨stack, L⟩) :
    Flow ctx frames [] (.live ⟨.int :: .int :: stack, L⟩) [.ifCompare r l] (.live ⟨stack, L⟩) :=
  ⟨_, .next (by simp) rfl rfl (by simp [Instr.targets, h]), le_refl (Point.live _)⟩

lemma flow_switch {table : List (Int32 × Label)}
    (h : ∀ m ∈ table.map Prod.snd ++ [l], frames m = ⟨stack, L⟩) :
    Flow ctx frames [] (.live ⟨.int :: stack, L⟩) [.lookupSwitch table l] (.dead stack.length) :=
  ⟨_, .stop rfl rfl fun m hm => (h m hm).ge, le_refl (Point.dead _)⟩

end Jumps

section Parts

variable {Γ : Variables} {program : String}

lemma load_pushes {d : Designator} (h : d.WellTyped Γ) :
    Pushes Γ program (load d) [Word.ofTy program d.ty] := by
  unfold load
  rw [h.ty_eq]
  exact loadVia_pushes h.place fun hpart => path_pushes h.place (.inr hpart)

lemma call_pushes {callee : Signature} {args : List Arg}
    (h : ArgsWellTyped Γ callee.params args) :
    Pushes Γ program (call callee args) (callee.result.map (Word.ofTy program)).toList :=
  invocation_pushes (fun _ _ _ _ _ => pushArgs_carries h) fun _ _ _ _ _ => copyBack_carries h

lemma assign_pushes {target : Designator} {value : Expr} (ht : target.WellTyped Γ)
    (hv : value.WellTyped Γ) (haccepts : target.ty.accepts value.ty = true) :
    Pushes Γ program (assign target value) [] := by
  intro s code t L h hR
  simp only [assign, Gen.bind_ok, Gen.pure_ok] at h
  obtain ⟨codeA, u, hA, codeV, v, hV, rfl, rfl⟩ := h
  obtain ⟨hR', hA⟩ := address_pushes ht.place _ _ _ _ hA hR
  obtain ⟨hR'', hV⟩ := expr_pushes hv _ _ _ _ hV hR'
  refine ⟨hR'', fun stack => ?_⟩
  have hvalue := (hV (addressWords program target.place ++ stack)).append (widen_carries haccepts)
  rw [ht.ty_eq] at hvalue ⊢
  rw [List.append_assoc codeA]
  exact ((hA stack).append hvalue).append (store_carries ht.place hR'')

lemma stepCounter_pushes {counter : Designator} {down : Bool} (h : counter.WellTyped Γ)
    (hord : counter.ty.isOrdinal = true) : Pushes Γ program (stepCounter counter down) [] := by
  intro s code t L hcode hR
  simp only [stepCounter, Gen.bind_ok, Gen.pure_ok] at hcode
  obtain ⟨codeA, u, hA, codeL, v, hL, rfl, rfl⟩ := hcode
  obtain ⟨hR', hA⟩ := address_pushes h.place _ _ _ _ hA hR
  obtain ⟨hR'', hL⟩ := load_pushes h _ _ _ _ hL hR'
  refine ⟨hR'', fun stack => ?_⟩
  have hstep : Carries program v v ⟨Word.ofTy program counter.ty ::
      (addressWords program counter.place ++ stack), L⟩
      [.pushInt 1, .arith (if down then .sub else .add) .int]
      ⟨Word.ofTy program counter.ty :: (addressWords program counter.place ++ stack), L⟩ := by
    refine stack_carries (by simp [Straight, Instr.straight]) ?_
    rw [word_of_isOrdinal hord]
    cases down <;> rfl
  have hstore : Carries program v v ⟨Word.ofTy program counter.ty ::
      (addressWords program counter.place ++ stack), L⟩ (store counter.ty counter.place)
      ⟨stack, L⟩ := by
    rw [h.ty_eq]
    exact store_carries h.place hR''
  exact (((hA stack).append (hL _)).append hstep).append hstore

end Parts

section InputOutput

variable {Γ : Variables} {program : String} {s t : Supply} {L : Nat → Option Word}

/-- A basic type other than `char` has a reader, which leaves a value of the type. -/
lemma reader_carries {ty : Ty} (hbasic : ty.isBasic = true) (hchar : ty.is .char = false)
    (stack : List Word) :
    Carries program s s ⟨stack, L⟩ [.invoke .standardInput, .invoke (reader ty)]
      ⟨Word.ofTy program ty :: stack, L⟩ := by
  refine stack_carries (by simp [Straight, Instr.straight]) ?_
  cases ty with
  | basic b =>
    cases b with
    | char => cases hchar
    | _ => rfl
  | _ => cases hbasic

lemma readTarget_pushes {d : Designator} (h : d.WellTyped Γ) (hbasic : d.ty.isBasic = true) :
    Pushes Γ program (readTarget d) [] := by
  intro s code t L hcode hR
  simp only [readTarget, Gen.bind_ok, Gen.pure_ok] at hcode
  obtain ⟨codeA, u, hA, rfl, rfl⟩ := hcode
  obtain ⟨hR', hA⟩ := address_pushes h.place _ _ _ _ hA hR
  refine ⟨hR', fun stack => ?_⟩
  have hstore : Carries program u u ⟨Word.ofTy program d.ty ::
      (addressWords program d.place ++ stack), L⟩ (store d.ty d.place) ⟨stack, L⟩ := by
    rw [h.ty_eq]
    exact store_carries h.place hR'
  refine (hA stack).append ?_
  split_ifs with hchar
  · have hread : Carries program u u ⟨addressWords program d.place ++ stack, L⟩
        [.invoke .standardInput, .pushText "", .invoke .useDelimiter, .pop, .invoke .standardInput,
          .invoke .readToken, .pushInt 0, .invoke .charAt]
        ⟨Word.ofTy program d.ty :: (addressWords program d.place ++ stack), L⟩ := by
      refine stack_carries (by simp [Straight, Instr.straight]) ?_
      rw [Ty.eq_basic_of_is hchar]
      rfl
    have hreset : Carries program u u ⟨stack, L⟩
        [.invoke .standardInput, .invoke .resetDelimiter, .pop] ⟨stack, L⟩ :=
      stack_carries (by simp [Straight, Instr.straight]) rfl
    exact (hread.append hstore).append hreset
  · exact (reader_carries hbasic (by simpa using hchar) _).append hstore

lemma readTargets_pushes {ds : List Designator}
    (h : ∀ d ∈ ds, d.WellTyped Γ ∧ d.ty.isBasic = true) :
    Pushes Γ program (readTargets ds) [] := by
  induction ds with
  | nil => exact pushes_pure (by simp [Straight]) fun _ => rfl
  | cons d ds ih =>
    obtain ⟨hd, hds⟩ := List.forall_mem_cons.mp h
    intro s code t L hcode hR
    simp only [readTargets, Gen.bind_ok, Gen.pure_ok] at hcode
    obtain ⟨code', u, hD, rest, v, hrest, rfl, rfl⟩ := hcode
    obtain ⟨hR', hD⟩ := readTarget_pushes hd.1 hd.2 _ _ _ _ hD hR
    obtain ⟨hR'', hrest⟩ := ih hds _ _ _ _ hrest hR'
    exact ⟨hR'', fun stack => (hD stack).append (hrest stack)⟩

lemma read_pushes {line : Bool} {ds : List Designator}
    (h : ∀ d ∈ ds, d.WellTyped Γ ∧ d.ty.isBasic = true) : Pushes Γ program (read line ds) [] := by
  refine (readTargets_pushes h).snoc ?_ ?_
  · cases line <;> simp [Straight, Instr.straight, skipLine]
  · cases line <;> exact fun _ => rfl

/-- The array of the values that are printed. -/
def objects : Word := .ref (.array .anything)

/-- A scalar on the stack becomes an object that the array of objects takes. -/
lemma wrapped_carries {ty : Ty} (hty : ty.isAggregate = false) (stack : List Word) :
    Carries program s s ⟨Word.ofTy program ty :: .int :: objects :: stack, L⟩
      (wrap ty ++ [.arrayStore .ref]) ⟨stack, L⟩ := by
  refine stack_carries ((straight_wrap ty).append (by simp [Straight, Instr.straight])) ?_
  cases ty with
  | basic b => cases b <;> rfl
  | enum name => rfl
  | record => cases hty
  | array => cases hty

lemma fillObjects_carries {es : List Expr}
    (h : ∀ e ∈ es, e.WellTyped Γ ∧ e.ty.isAggregate = false) {n : Nat} {code : List Instr}
    (hcode : fillObjects n es s = .ok (code, t)) (hR : Ready Γ program s L) :
    Ready Γ program t L ∧
      ∀ stack, Carries program s t ⟨objects :: stack, L⟩ code ⟨objects :: stack, L⟩ := by
  induction es generalizing n s code with
  | nil =>
    simp only [fillObjects, Gen.pure_ok] at hcode
    obtain ⟨rfl, rfl⟩ := hcode
    exact ⟨hR, fun stack => stack_carries (by simp [Straight]) rfl⟩
  | cons e es ih =>
    obtain ⟨he, hes⟩ := List.forall_mem_cons.mp h
    simp only [fillObjects, Gen.bind_ok, Gen.pure_ok] at hcode
    obtain ⟨codeE, u, hE, rest, v, hrest, rfl, rfl⟩ := hcode
    obtain ⟨hR', hE⟩ := expr_pushes he.1 _ _ _ _ hE hR
    obtain ⟨hR'', hrest⟩ := ih hes hrest hR'
    refine ⟨hR'', fun stack => ?_⟩
    have hstart : Carries program s s ⟨objects :: stack, L⟩ [.dup, .pushInt (Int32.ofNat n)]
        ⟨.int :: objects :: objects :: stack, L⟩ :=
      stack_carries (by simp [Straight, Instr.straight]) rfl
    have hall := ((hstart.append (hE _)).append (wrapped_carries he.2 (objects :: stack))).append
      (hrest stack)
    simpa only [List.append_assoc] using hall

lemma write_pushes {line : Bool} {args : List WriteArg} (h : ∀ a ∈ args, a.WellTyped Γ) :
    Pushes Γ program (write line args) [] := by
  have hvalues := writtenValues_wellTyped h
  unfold write
  split_ifs
  · exact pushes_pure (by simp [Straight, Instr.straight]) fun _ => rfl
  · exact pushes_pure (by simp [Straight]) fun _ => rfl
  · dsimp only
    rcases hws : writtenValues args with _ | ⟨e, es⟩
    · exact pushes_pure (by simp [Straight, Instr.straight]) fun _ => rfl
    · rw [hws] at hvalues
      intro s code t L hcode hR
      simp only [Gen.bind_ok, Gen.pure_ok] at hcode
      obtain ⟨code', u, hcode, rfl, rfl⟩ := hcode
      obtain ⟨hR', hcode⟩ := fillObjects_carries hvalues hcode hR
      refine ⟨hR', fun stack => ?_⟩
      have hstart : Carries program s s ⟨stack, L⟩
          [.invoke .standardOutput, .pushText (formatText line args),
            .pushInt (Int32.ofNat (e :: es).length), .newObjectArray]
          ⟨objects :: .ref .string :: .ref (.object Listing.printStream) :: stack, L⟩ :=
        stack_carries (by simp [Straight, Instr.straight]) rfl
      have hprint : Carries program u u
          ⟨objects :: .ref .string :: .ref (.object Listing.printStream) :: stack, L⟩
          [.invoke .printFormatted, .pop] ⟨stack, L⟩ :=
        stack_carries (by simp [Straight, Instr.straight]) rfl
      exact (hstart.append (hcode _)).append hprint

end InputOutput

section Statements

variable {Γ : Variables} {program : String} {policy : CasePolicy}

/-- In a method with these variables, the operations that `x` generates keep the frame. -/
def Keeps (Γ : Variables) (program : String) (x : Gen (List Op)) : Prop :=
  ∀ s ops t L, x s = .ok (ops, t) → Ready Γ program s L →
    Ready Γ program t L ∧
      ∀ stack, Carries program s t ⟨stack, L⟩ (emitted ops) ⟨stack, L⟩

lemma Keeps.entering {kind : String} {x : Gen (List Op)} (hx : Keeps Γ program x) :
    Keeps Γ program (entering kind x) := by
  intro s ops t L h hR
  obtain ⟨ops', h', rfl⟩ := entering_ok.mp h
  simpa using hx _ _ _ _ h' hR

lemma Pushes.asm {x : Gen (List Instr)} (hx : Pushes Γ program x []) :
    Keeps Γ program (do return asm (← x)) := by
  intro s ops t L h hR
  simp only [Gen.bind_ok, Gen.pure_ok] at h
  obtain ⟨code, u, hcode, rfl, rfl⟩ := h
  rw [emitted_asm]
  exact hx _ _ _ _ hcode hR

lemma keeps_nil : Keeps Γ program (return []) := by
  intro s ops t L h hR
  simp only [Gen.pure_ok] at h
  obtain ⟨rfl, rfl⟩ := h
  exact ⟨hR, fun stack => stack_carries (by simp [Straight]) rfl⟩

/-- Most statements draw two labels first, and both of them have the frame of the statement. -/
lemma Keeps.twoLabels {body : Label → Label → Gen (List Op)}
    (h : ∀ a b s ops t L, body a b s = .ok (ops, t) → Ready Γ program s L →
      Ready Γ program t L ∧ ∀ stack, Arranged program s t fun ctx frames =>
        frames a = ⟨stack, L⟩ → frames b = ⟨stack, L⟩ →
          Flow ctx frames [] (.live ⟨stack, L⟩) (emitted ops) (.live ⟨stack, L⟩)) :
    Keeps Γ program (do
      let a ← freshLabel
      let b ← freshLabel
      body a b) := by
  intro s ops t L hops hR
  simp only [Gen.bind_ok, Gen.freshLabel_ok] at hops
  obtain ⟨_, s₁, ⟨rfl, hl₁, hs₁, hp₁⟩, _, s₂, ⟨rfl, hl₂, hs₂, hp₂⟩, hops⟩ := hops
  obtain ⟨hR', hflow⟩ := h _ _ _ _ _ _ hops (hR.next (by omega) (by omega))
  refine ⟨hR', fun stack => (hflow stack).own ⟨stack, L⟩ (by omega) (by omega) ?_⟩
  intro ctx frames hown hflow
  exact hflow (hown s.label (by omega) (by omega)) (hown s₁.label (by omega) (by omega))

/-- Control goes from one branch to none of the others: each one starts at its label and ends
with a jump to `done`. -/
def ArmsKeep (Γ : Variables) (program : String) (policy : CasePolicy)
    (branches : List (List Int32 × Stmt)) : Prop :=
  ∀ (done : Label) (labels : List Label) s ops t L, labels.length = branches.length →
    arms policy done labels branches s = .ok (ops, t) → Ready Γ program s L →
    Ready Γ program t L ∧ ∀ stack, Arranged program s t fun ctx frames =>
      (∀ l ∈ done :: labels, frames l = ⟨stack, L⟩) →
        Flow ctx frames [] (.dead stack.length) (emitted ops) (.dead stack.length)

lemma armsKeep_nil : ArmsKeep Γ program policy [] := by
  intro done labels s ops t L hlength hcode hR
  obtain rfl : labels = [] := List.length_eq_zero_iff.mp hlength
  simp only [arms, Gen.pure_ok] at hcode
  obtain ⟨rfl, rfl⟩ := hcode
  exact ⟨hR, fun stack => ⟨le_refl _, le_refl _, .of_forall fun _ _ _ _ _ =>
    le_refl (Point.dead _)⟩⟩

lemma armsKeep_cons {values : List Int32} {c : Stmt} {rest : List (List Int32 × Stmt)}
    (hc : Keeps Γ program (stmt policy c)) (hrest : ArmsKeep Γ program policy rest) :
    ArmsKeep Γ program policy ((values, c) :: rest) := by
  intro done labels s ops t L hlength hcode hR
  obtain ⟨l, labels, rfl⟩ := List.exists_cons_of_length_eq_add_one hlength
  simp only [arms, Gen.bind_ok, Gen.pure_ok] at hcode
  obtain ⟨code, u, hcode, more, v, hmore, rfl, rfl⟩ := hcode
  obtain ⟨hR', hcode⟩ := hc _ _ _ _ hcode hR
  obtain ⟨hR'', hmore⟩ := hrest _ _ _ _ _ _ (by simpa using hlength) hmore hR'
  refine ⟨hR'', fun stack => ((hcode stack).and (hmore stack)).mono ?_⟩
  rintro ctx frames ⟨hcode, hmore⟩ hframes
  have hland : frames l = ⟨stack, L⟩ := hframes l (by simp)
  have hdone : frames done = ⟨stack, L⟩ := hframes done (by simp)
  have hmore := hmore fun m hm => hframes m (by grind)
  simp only [emitted_append, emitted_asm]
  exact (((flow_land hland).append hcode).append (flow_goto hdone)).append hmore

/-- A case statement has one label for its end, one for each branch, and one for the default if
it has one. -/
lemma caseOf_keeps {selector : Expr} {branches : List (List Int32 × Stmt)}
    {otherwise : Option Stmt} (hselector : selector.WellTyped Γ)
    (hord : selector.ty.isOrdinal = true) (harms : ArmsKeep Γ program policy branches)
    (hotherwise : Keeps Γ program (optional policy otherwise)) :
    Keeps Γ program (stmt policy (.caseOf selector branches otherwise)) := by
  rw [stmt]
  refine .entering fun s ops t L h hR => ?_
  simp only [Gen.bind_ok, Gen.pure_ok, Gen.freshLabel_ok, defaultLabel_ok, Prod.exists] at h
  obtain ⟨_, s₁, ⟨rfl, hl₁, hs₁, hp₁⟩, labels, table, s₂, hT, default, s₃,
    ⟨hdefault, hs₃, hp₃, hl₃⟩, codeE, s₄, hE, codeB, s₅, hB, codeD, s₆, hcodeD, rfl, rfl⟩ := h
  obtain ⟨hlabels, hl₂, hs₂, hp₂, htargets⟩ := caseTable_ok hT
  have hR₃ : Ready Γ program s₃ L := hR.next (by omega) (by omega)
  obtain ⟨hR₄, hE⟩ := expr_pushes hselector _ _ _ _ hE hR₃
  obtain ⟨hR₅, hB⟩ := harms _ _ _ _ _ _ (by simp [hlabels]) hB hR₄
  obtain ⟨hR₆, hD⟩ := hotherwise _ _ _ _ hcodeD hR₅
  refine ⟨hR₆, fun stack => ?_⟩
  refine (((hE stack).and (hB stack)).and (hD stack)).own ⟨stack, L⟩ (by omega) (by omega) ?_
  rintro ctx frames hown ⟨⟨hE, hB⟩, hD⟩
  have hdone := hown s.label (by omega) (by omega)
  have hbranch : ∀ l ∈ labels, frames l = ⟨stack, L⟩ := by
    intro l hl
    rw [hlabels, List.mem_range'_1] at hl
    exact hown l (by omega) (by omega)
  have htable : ∀ l ∈ table.map Prod.snd, frames l = ⟨stack, L⟩ := fun l hl =>
    hbranch l ((htargets l hl).resolve_right (by simp))
  have hB := hB (List.forall_mem_cons.mpr ⟨hdone, hbranch⟩)
  rw [word_of_isOrdinal hord] at hE
  simp only [emitted_append, emitted_asm]
  cases otherwise with
  | none =>
    simp only [optional, Gen.pure_ok] at hcodeD
    obtain ⟨rfl, rfl⟩ := hcodeD
    obtain rfl : default = s.label := hdefault
    have hswitch : Flow ctx frames [] _ _ _ :=
      flow_switch (List.forall_mem_append.mpr ⟨htable, by simpa using hdone⟩)
    simpa using ((hE.append hswitch).append hB).append (flow_land hdone)
  | some c =>
    obtain rfl : default = s₂.label := hdefault
    have hdefault : frames s₂.label = ⟨stack, L⟩ := hown _ (by omega) (by simp [hl₃])
    have hswitch : Flow ctx frames [] _ _ _ :=
      flow_switch (List.forall_mem_append.mpr ⟨htable, by simpa using hdefault⟩)
    exact ((((hE.append hswitch).append hB).append (flow_land hdefault)).append hD).append
      (flow_label hdone)

lemma forDo_keeps {counter : Designator} {first last : Expr} {down : Bool} {body : Stmt}
    (hcounter : counter.WellTyped Γ) (hord : counter.ty.isOrdinal = true)
    (hfirst : first.WellTyped Γ) (hsame : counter.ty.same first.ty = true)
    (hlast : last.WellTyped Γ) (hsame' : counter.ty.same last.ty = true)
    (hbody : Keeps Γ program (stmt policy body)) :
    Keeps Γ program (stmt policy (.forDo counter first last down body)) := by
  have haccepts : counter.ty.accepts first.ty = true := by simp [Ty.accepts, hsame]
  rw [stmt]
  refine .entering (.twoLabels fun top exit s ops t L h hR => ?_)
  simp only [Gen.bind_ok, Gen.pure_ok] at h
  obtain ⟨codeA, s₁, hA, codeL, s₂, hL, codeV, s₃, hV, codeB, s₄, hB, codeS, s₅, hS, rfl, rfl⟩ := h
  obtain ⟨hR₁, hA⟩ := assign_pushes hcounter hfirst haccepts _ _ _ _ hA hR
  obtain ⟨hR₂, hL⟩ := expr_pushes hlast _ _ _ _ hL hR₁
  obtain ⟨hR₃, hV⟩ := load_pushes hcounter _ _ _ _ hV hR₂
  obtain ⟨hR₄, hB⟩ := hbody _ _ _ _ hB hR₃
  obtain ⟨hR₅, hS⟩ := stepCounter_pushes hcounter hord _ _ _ _ hS hR₄
  refine ⟨hR₅, fun stack => ?_⟩
  have hparts := ((((hA stack).and (hL stack)).and (hV (.int :: stack))).and (hB stack)).and
    (hS stack)
  refine hparts.mono ?_
  rintro ctx frames ⟨⟨⟨⟨hA, hL⟩, hV⟩, hB⟩, hS⟩ htop hexit
  have hword : Word.ofTy program last.ty = .int := by
    rw [← word_of_same hsame', word_of_isOrdinal hord]
  rw [word_of_isOrdinal hord] at hV
  rw [hword] at hL
  simp only [emitted_append, emitted_asm]
  exact (((((hA.append (flow_label htop)).append hL).append hV).append
    (flow_ifCompare hexit)).append hB).append
    (hS.append ((flow_goto htop).append (flow_land hexit)))

mutual

theorem stmt_keeps : {c : Stmt} → (h : c.WellTyped Γ) → Keeps Γ program (stmt policy c)
  | .empty, _ => by
    rw [stmt]
    exact keeps_nil.entering
  | .compound body, h => by
    rw [stmt]
    exact (stmts_keeps h).entering
  | .assign target value, h => by
    rw [stmt]
    exact (assign_pushes h.1 h.2.1 h.2.2.2).asm.entering
  | .ifThen cond yes no, ⟨hcond, hyes, hno⟩ => by
    rw [stmt]
    refine .entering (.twoLabels fun yesLabel done s ops t L h hR => ?_)
    simp only [Gen.bind_ok, Gen.pure_ok] at h
    obtain ⟨codeC, s₁, hC, codeN, s₂, hN, codeY, s₃, hY, rfl, rfl⟩ := h
    obtain ⟨hR₁, hC⟩ := expr_pushes hcond.wellTyped _ _ _ _ hC hR
    obtain ⟨hR₂, hN⟩ := optional_keeps hno _ _ _ _ hN hR₁
    obtain ⟨hR₃, hY⟩ := stmt_keeps hyes _ _ _ _ hY hR₂
    refine ⟨hR₃, fun stack => (((hC stack).and (hN stack)).and (hY stack)).mono ?_⟩
    rintro ctx frames ⟨⟨hC, hN⟩, hY⟩ hland hdone
    rw [hcond.ty_eq] at hC
    simp only [emitted_append, emitted_asm]
    exact ((((hC.append (flow_ifZero hland)).append hN).append
      ((flow_goto hdone).append (flow_land hland))).append hY).append (flow_label hdone)
  | .caseOf selector branches otherwise, ⟨hselector, hord, harms, hotherwise⟩ =>
    caseOf_keeps hselector hord (arms_keep harms) (optional_keeps hotherwise)
  | .repeatUntil body cond, ⟨hbody, hcond⟩ => by
    rw [stmt]
    refine .entering (.twoLabels fun top exit s ops t L h hR => ?_)
    simp only [Gen.bind_ok, Gen.pure_ok] at h
    obtain ⟨codeB, s₁, hB, codeC, s₂, hC, rfl, rfl⟩ := h
    obtain ⟨hR₁, hB⟩ := stmts_keeps hbody _ _ _ _ hB hR
    obtain ⟨hR₂, hC⟩ := expr_pushes hcond.wellTyped _ _ _ _ hC hR₁
    refine ⟨hR₂, fun stack => ((hB stack).and (hC stack)).mono ?_⟩
    rintro ctx frames ⟨hB, hC⟩ htop hexit
    rw [hcond.ty_eq] at hC
    simp only [emitted_append, emitted_asm]
    exact ((flow_label htop).append hB).append (hC.append ((flow_ifZero hexit).append
      ((flow_goto htop).append (flow_land hexit))))
  | .whileDo cond body, ⟨hcond, hbody⟩ => by
    rw [stmt]
    refine .entering (.twoLabels fun top exit s ops t L h hR => ?_)
    simp only [Gen.bind_ok, Gen.pure_ok] at h
    obtain ⟨codeC, s₁, hC, codeB, s₂, hB, rfl, rfl⟩ := h
    obtain ⟨hR₁, hC⟩ := expr_pushes hcond.wellTyped _ _ _ _ hC hR
    obtain ⟨hR₂, hB⟩ := stmt_keeps hbody _ _ _ _ hB hR₁
    refine ⟨hR₂, fun stack => ((hC stack).and (hB stack)).mono ?_⟩
    rintro ctx frames ⟨hC, hB⟩ htop hexit
    rw [hcond.ty_eq] at hC
    simp only [emitted_append, emitted_asm]
    exact ((((flow_label htop).append hC).append (flow_ifZero hexit)).append hB).append
      ((flow_goto htop).append (flow_land hexit))
  | .forDo counter first last down body, ⟨hcounter, hord, hfirst, hsame, hlast, hsame', hbody, _⟩ =>
    forDo_keeps hcounter hord hfirst hsame hlast hsame' (stmt_keeps hbody)
  | .procedureCall callee args, h => by
    rw [stmt]
    have hcall : Pushes Γ program (call callee args) _ := call_pushes h.2
    rw [h.1] at hcall
    exact hcall.asm.entering
  | .functionCall callee args, h => by
    obtain ⟨hsome, hargs⟩ := h
    obtain ⟨r, hr⟩ := Option.isSome_iff_exists.mp hsome
    rw [stmt]
    have hcall : Pushes Γ program (call callee args) _ := call_pushes hargs
    rw [hr] at hcall
    refine .entering fun s ops t L h hR => ?_
    simp only [Gen.bind_ok, Gen.pure_ok] at h
    obtain ⟨code, u, hcode, rfl, rfl⟩ := h
    obtain ⟨hR', hcode⟩ := hcall _ _ _ _ hcode hR
    rw [emitted_asm]
    exact ⟨hR', fun stack =>
      (hcode stack).append (stack_carries (by simp [Straight, Instr.straight]) rfl)⟩
  | .write line args, h => by
    rw [stmt]
    exact (write_pushes h).asm.entering
  | .read line targets, h => by
    rw [stmt]
    exact (read_pushes h).asm.entering

theorem stmts_keeps : {cs : List Stmt} → (h : StmtsWellTyped Γ cs) →
    Keeps Γ program (stmts policy cs)
  | [], _ => by
    rw [stmts]
    exact keeps_nil
  | c :: cs, ⟨hc, hcs⟩ => by
    intro s ops t L h hR
    simp only [stmts, Gen.bind_ok, Gen.pure_ok] at h
    obtain ⟨code, u, hcode, rest, v, hrest, rfl, rfl⟩ := h
    obtain ⟨hR', hcode⟩ := stmt_keeps hc _ _ _ _ hcode hR
    obtain ⟨hR'', hrest⟩ := stmts_keeps hcs _ _ _ _ hrest hR'
    rw [emitted_append]
    exact ⟨hR'', fun stack => (hcode stack).append (hrest stack)⟩

theorem optional_keeps : {c : Option Stmt} → (h : OptionalWellTyped Γ c) →
    Keeps Γ program (optional policy c)
  | none, _ => by
    rw [optional]
    exact keeps_nil
  | some c, h => by
    rw [optional]
    exact stmt_keeps h

theorem arms_keep : {branches : List (List Int32 × Stmt)} → (h : ArmsWellTyped Γ branches) →
    ArmsKeep Γ program policy branches
  | [], _ => armsKeep_nil
  | (_, _) :: _, ⟨_, hc, hrest⟩ => armsKeep_cons (stmt_keeps hc) (arms_keep hrest)

end

end Statements

end PascalJvm.Emit
