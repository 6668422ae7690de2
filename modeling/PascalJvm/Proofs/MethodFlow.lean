import Mathlib.Tactic
import PascalJvm.Proofs.StatementFlow

/-!
# Generated methods pass the verifier

Every method of a class that is generated from a well-typed program starts with the frame that
its parameters give, sets its variables, and ends in a return. The assembler accepts it, and
the frames of its positions are the ones the verifier asks for.
-/
namespace PascalJvm.Emit

open Jvm Typed

/-- A method in which no variable is set yet. -/
def noVariables : Variables := ⟨[], [], by simp, by simp, by simp⟩

lemma Ready.set {program : String} {s : Supply} {L : Nat → Option Word} {n : Nat} {w : Word}
    (h : Ready noVariables program s L) (hn : n < s.slot) :
    Ready noVariables program s (Function.update L n (some w)) where
  vars hd := by simp [noVariables] at hd
  slots_le := h.slots_le
  slot_le := h.slot_le
  free hm := by
    rw [Function.update_of_ne (by omega)]
    exact h.free hm

section Initial

variable {program : String} {s t : Supply} {L : Nat → Option Word}

/-- The loop that fills an array of objects. Its labels have the frame in which the array and
the index are in their slots. -/
lemma fillArray_carries {len : Nat} {elem : Gen (List Instr)} {ty : Ty} {code : List Instr}
    (helem : Pushes noVariables program elem [Word.ofTy program ty]) (hty : Kind.ofTy ty = .ref)
    (h : fillArray len elem s = .ok (code, t)) (hR : Ready noVariables program s L) :
    Ready noVariables program t L ∧ ∀ stack,
      Carries program s t ⟨.ref (.array (.ofTy program ty)) :: stack, L⟩ code
        ⟨.ref (.array (.ofTy program ty)) :: stack, L⟩ := by
  simp only [fillArray, Gen.releasing_ok, Gen.bind_ok, Gen.pure_ok, Gen.freshSlot_ok,
    Gen.freshLabel_ok] at h
  obtain ⟨_, ⟨_, s₁, ⟨rfl, hl₁, hs₁, hp₁⟩, _, s₂, ⟨rfl, hl₂, hs₂, hp₂⟩, _, s₃,
    ⟨rfl, hl₃, hs₃, hp₃⟩, _, s₄, ⟨rfl, hl₄, hs₄, hp₄⟩, code', u, hcode, rfl, rfl⟩, hl, hs, hp⟩ := h
  set w : Word := .ref (.array (.ofTy program ty)) with hw
  set L₁ := Function.update L s.slot (some w) with hL₁
  set L₂ := Function.update L₁ s₁.slot (some .int) with hL₂
  have hR₁ : Ready noVariables program s₁ L₁ := hR.push hs₁ hp₁ w
  have hR₂ : Ready noVariables program s₂ L₂ := hR₁.push hs₂ hp₂ .int
  have hR₄ : Ready noVariables program s₄ L₂ := hR₂.next (by omega) (by omega)
  obtain ⟨hR₅, hcode⟩ := helem _ _ _ _ hcode hR₄
  have harray : L₂ s.slot = some w := by
    rw [hL₂, Function.update_of_ne (by omega), hL₁, Function.update_self]
  have hindex : L₂ s₁.slot = some .int := by rw [hL₂, Function.update_self]
  have hforget : ∀ n v, L n = some v → L₂ n = some v := fun n v hv =>
    hR₁.push_keeps .int n v (hR.push_keeps w n v hv)
  have hpeak := (hcode []).peak_le
  refine ⟨hR.next hs (by omega), fun stack => ?_⟩
  have hstart : Carries program s₄ s₄ ⟨w :: stack, L⟩
      ([.store .ref s.slot] ++ [.pushInt 0] ++ [.store .int s₁.slot]) ⟨stack, L₂⟩ :=
    ((setSlot_carries (by omega) rfl).append
      (stack_carries (by simp [Straight, Instr.straight]) rfl)).append
      (setSlot_carries (by omega) rfl)
  have htest : Carries program s₄ s₄ ⟨stack, L₂⟩
      ([.load .int s₁.slot] ++ [.pushInt (Int32.ofNat len)]) ⟨.int :: .int :: stack, L₂⟩ :=
    (load_carries hR₄ hindex rfl).append (stack_carries (by simp [Straight, Instr.straight]) rfl)
  have hopen : Carries program s₄ s₄ ⟨stack, L₂⟩
      ([.load .ref s.slot] ++ [.load .int s₁.slot]) ⟨.int :: w :: stack, L₂⟩ :=
    (load_carries hR₄ harray rfl).append (load_carries hR₄ hindex rfl)
  have hfill : Carries program u u ⟨Word.ofTy program ty :: .int :: w :: stack, L₂⟩
      [.arrayStore .ref] ⟨stack, L₂⟩ := by
    have helements := elements_ofTy program ty
    rw [hty] at helements
    refine stack_carries (by simp [Straight, Instr.straight]) ?_
    simp [Instr.onStack, Instr.host?, Instr.plain, hw, helements]
  have hstep : Carries program u u ⟨stack, L₂⟩
      ([.load .int s₁.slot] ++ [.pushInt 1, .arith .add .int] ++ [.store .int s₁.slot])
      ⟨stack, Function.update L₂ s₁.slot (some .int)⟩ :=
    ((load_carries hR₅ hindex rfl).append
      (stack_carries (by simp [Straight, Instr.straight]) rfl)).append
      (setSlot_carries (by omega) rfl)
  rw [← hindex, Function.update_eq_self] at hstep
  have hlast : Carries program u u ⟨stack, L₂⟩ [.load .ref s.slot] ⟨w :: stack, L₂⟩ :=
    load_carries hR₅ harray rfl
  have hparts := ((hstart.and htest).and (hopen.append (hcode _))).and
    ((hfill.append hstep).and hlast)
  refine Arranged.release (Carries.weaken (G := ⟨w :: stack, L₂⟩) ?_ ⟨rfl, hforget⟩) hl hp
  refine hparts.own ⟨stack, L₂⟩ (by omega) (by omega) ?_
  rintro ctx frames hown ⟨⟨⟨hstart, htest⟩, hbody⟩, hclose, hlast⟩
  have htop := hown s₂.label (by omega) (by omega)
  have hexit := hown s₃.label (by omega) (by omega)
  rw [List.append_assoc]
  exact ((hstart.append (flow_label htop)).append (htest.append (flow_ifCompare hexit))).append
    (hbody.append ((hclose.append (flow_goto htop)).append ((flow_land hexit).append hlast)))

lemma initial_pushes (ty : Ty) : Pushes noVariables program (initial ty) [Word.ofTy program ty] := by
  induction ty using initial.induct with
  | case6 low len elem href ih =>
    simp only [initial, href, if_true]
    intro s code t L hcode hR
    simp only [Gen.bind_ok, Gen.pure_ok] at hcode
    obtain ⟨code', u, hcode, rfl, rfl⟩ := hcode
    obtain ⟨hR', hcode⟩ := fillArray_carries ih href hcode hR
    refine ⟨hR', fun stack => ?_⟩
    have hnew : Carries program s s ⟨stack, L⟩ [.pushInt (Int32.ofNat len), .newArray elem]
        ⟨.ref (.array (.ofTy program elem)) :: stack, L⟩ :=
      stack_carries (by simp [Straight, Instr.straight]) rfl
    exact hnew.append (hcode stack)
  | case7 low len elem href =>
    simp only [initial, href, if_false]
    exact pushes_pure (by simp [Straight, Instr.straight]) fun _ => rfl
  | case3 b hreal htext =>
    simp only [initial]
    refine pushes_pure (by simp [Straight, Instr.straight]) fun _ => ?_
    cases b <;> simp_all <;> rfl
  | case5 name fields =>
    simp only [initial]
    refine pushes_pure (by simp [Straight, Instr.straight]) fun _ => ?_
    simp [Instr.onStack, Instr.host?, word_of_record rfl]
  | _ =>
    simp only [initial]
    exact pushes_pure (by simp [Straight, Instr.straight]) fun _ => rfl

lemma initGlobals_pushes (globals : List (String × Ty)) :
    Pushes noVariables program (initGlobals globals) [] := by
  induction globals with
  | nil => exact pushes_pure (by simp [Straight]) fun _ => rfl
  | cons global rest ih =>
    intro s code t L hcode hR
    simp only [initGlobals, Gen.bind_ok, Gen.pure_ok] at hcode
    obtain ⟨code', u, hcode, more, v, hmore, rfl, rfl⟩ := hcode
    obtain ⟨hR', hcode⟩ := initial_pushes global.2 _ _ _ _ hcode hR
    obtain ⟨hR'', hmore⟩ := ih _ _ _ _ hmore hR'
    refine ⟨hR'', fun stack => ((hcode stack).append (stack_carries ?_ ?_)).append (hmore stack)⟩
    · simp [Straight, Instr.straight]
    · simp [Instr.onStack, Instr.host?, Instr.plain, FieldRef.global]

/-- The record itself is in slot 0. -/
lemma initFields_carries {record : String} {fields : List (String × Ty)} {code : List Instr}
    (hcode : initFields record fields s = .ok (code, t)) (hR : Ready noVariables program s L)
    (hself : L 0 = some (.ref (.object (Listing.recordClass program record)))) :
    Ready noVariables program t L ∧
      ∀ stack, Carries program s t ⟨stack, L⟩ code ⟨stack, L⟩ := by
  induction fields generalizing s code with
  | nil =>
    simp only [initFields, Gen.pure_ok] at hcode
    obtain ⟨rfl, rfl⟩ := hcode
    exact ⟨hR, fun stack => stack_carries (by simp [Straight]) rfl⟩
  | cons field rest ih =>
    obtain ⟨name, ty⟩ := field
    simp only [initFields] at hcode
    split_ifs at hcode
    · simp only [Gen.bind_ok, Gen.pure_ok] at hcode
      obtain ⟨code', u, hcode, more, v, hmore, rfl, rfl⟩ := hcode
      obtain ⟨hR', hcode⟩ := initial_pushes ty _ _ _ _ hcode hR
      obtain ⟨hR'', hmore⟩ := ih hmore hR'
      refine ⟨hR'', fun stack => ?_⟩
      refine (((load_carries hR hself rfl).append (hcode _)).append
        (stack_carries ?_ ?_)).append (hmore stack)
      · simp [Straight, Instr.straight]
      · simp [Instr.onStack, Instr.host?, Instr.plain, FieldRef.member, Listing.ownerClass]
    · exact ih hcode hR

/-- After the variables of a routine got their values, their slots are set. They are the slots
from `k` on. -/
lemma initLocals_carries {vars : List Local} {k : Nat} {code : List Instr}
    (hslots : vars.map Local.slot = List.range' k vars.length) (hk : k + vars.length ≤ s.slot)
    (hcode : initLocals vars s = .ok (code, t)) (hR : Ready noVariables program s L) :
    ∃ L', Ready noVariables program t L' ∧ (∀ n < k, L' n = L n) ∧
      (∀ n v, vars[n]? = some v → L' (k + n) = some (Word.ofTy program v.ty)) ∧
      ∀ stack, Carries program s t ⟨stack, L⟩ code ⟨stack, L'⟩ := by
  induction vars generalizing s code k L with
  | nil =>
    simp only [initLocals, Gen.pure_ok] at hcode
    obtain ⟨rfl, rfl⟩ := hcode
    exact ⟨L, hR, fun _ _ => rfl, by simp, fun stack => stack_carries (by simp [Straight]) rfl⟩
  | cons v rest ih =>
    simp only [initLocals, Gen.bind_ok, Gen.pure_ok] at hcode
    obtain ⟨code', u, hcode, more, w, hmore, rfl, rfl⟩ := hcode
    rw [List.map_cons, List.length_cons, List.range'_succ, List.cons.injEq] at hslots
    obtain ⟨rfl, hrest⟩ := hslots
    rw [List.length_cons] at hk
    have hspan := initial_spans v.ty _ _ _ hcode
    obtain ⟨hR', hcode⟩ := initial_pushes v.ty _ _ _ _ hcode hR
    have hpeak := hR'.slot_le
    have hset := hR'.set (n := v.slot) (w := Word.ofTy program v.ty) (by omega)
    obtain ⟨L', hR'', hlow, hvars, hmore⟩ := ih hrest (by omega) hmore hset
    refine ⟨L', hR'', fun n hn => ?_, fun n x hx => ?_, fun stack => ?_⟩
    · rw [hlow n (by omega), Function.update_of_ne (by omega)]
    · cases n with
      | zero =>
        cases hx
        rw [Nat.add_zero, hlow v.slot (by omega), Function.update_self]
      | succ n =>
        rw [← hvars n x hx]
        congr 1
        omega
    · exact ((hcode stack).append (setSlot_carries (by omega) (holds_ofTy program v.ty))).append
        (hmore stack)

end Initial

section Methods

variable {program : String} {owner : Owner} {role : MethodRole}

/-- The frame that a method starts with. -/
def entryFrame (program : String) (owner : Owner) (role : MethodRole) : Frame :=
  ⟨[], fun n => (role.args program owner)[n]?⟩

lemma ready_entry {n : Nat} (owner : Owner) (role : MethodRole)
    (h : (role.args program owner).length ≤ n) :
    Ready noVariables program (.startingAt n) (entryFrame program owner role).locals where
  vars hd := by simp [noVariables] at hd
  slots_le := Nat.zero_le _
  slot_le := le_refl _
  free hm := List.getElem?_eq_none (h.trans hm)

/-- The operations of a method body: the frames go from the entry into a return. -/
structure Body (program : String) (owner : Owner) (role : MethodRole) (n : Nat) (ops : List Op)
    (t : Supply) : Prop where
  span : Span (.startingAt n) t (emitted ops)
  written : Written ops
  flow : ∃ d, Arranged program (.startingAt n) t fun ctx frames =>
    ctx.result = role.result program →
      Flow ctx frames [] (.live (entryFrame program owner role)) (emitted ops) (.dead d)

lemma run_of_check {ctx : Context} {ins : Instr} {F G : Frame} {ops : List HostOp}
    (hops : ins.host? ctx.program = some ops) (h : check ctx ins F = some G) :
    HostOp.run ops F.stack = some G.stack := by
  cases ins <;> cases hops
  all_goals
    obtain ⟨stack, hstack, rfl⟩ := Option.map_eq_some_iff.mp h
    exact hstack

/-- The assembler accepts such a body, and the method passes the verifier. -/
theorem Body.verified {n : Nat} {ops : List Op} {t : Supply} (h : Body program owner role n ops t)
    (hargs : (role.args program owner).length ≤ n) :
    ∃ m, assemble (labelled t.label ops) = .ok ⟨emitted ops, m⟩ ∧
      Verified program owner ⟨role, ⟨emitted ops, m⟩, t.peak⟩ := by
  obtain ⟨d, harranged⟩ := h.flow
  obtain ⟨frames, hframes⟩ := harranged.framed.exists_frames
  have hflow := hframes ⟨program, role.result program, t.peak⟩ rfl (le_refl _) rfl
  obtain ⟨T, hentry, hmap⟩ := hflow.frameMap
  have hdepth := hmap.consistent hentry.1.symm
  obtain ⟨m, hassemble, hgreatest⟩ := assemble_labelled rfl h.span h.written hdepth
  refine ⟨m, hassemble, hargs.trans h.span.peak_le, T, hentry, fun i hr => ?_⟩
  have hlt := hflow.lt_length_of_reachable hr
  obtain ⟨ins, hi⟩ : ∃ ins, (emitted ops)[i]? = some ins := ⟨(emitted ops)[i], by simp⟩
  obtain ⟨G, hcheck, hedges⟩ := hmap.step hi
  have hreach : ∀ (j : Nat) (x : Instr), (emitted ops)[j]? = some x →
      x.reach (T j).stack.length ≤ m :=
    fun j x hj => hgreatest.2 (.inr ⟨j, x, hj, rfl⟩)
  have hbefore : (T i).stack.length ≤ m := hdepth.depth_le hlt fun j x _ hj => hreach j x hj
  have hafter : G.stack.length ≤ m := by
    rw [(check_balanced hcheck).length]
    exact (ins.after_le_reach _).trans (hreach i ins hi)
  refine ⟨ins, G, hi, hcheck, hedges, hbefore, hafter, fun host k stack hhost hrun => ?_⟩
  have hinner := Instr.inner_le hhost (run_of_check hhost hcheck) hrun
  exact hinner.trans (max_le hbefore (hreach i ins hi))

/-- Generation ends in a result that is `good`, or in an error that is `bad`. -/
def Ends {α : Type} (good : α → Prop) (bad : EmitError → Prop) (x : Traced EmitError α) : Prop :=
  (∃ a, x.outcome = .ok a ∧ good a) ∨ ∃ e, x.outcome = .error e ∧ bad e

namespace Ends

variable {α β : Type} {good : α → Prop} {good' : β → Prop} {bad : EmitError → Prop}

lemma pure {a : α} (h : good a) : Ends good bad (pure a) := .inl ⟨a, rfl, h⟩

lemma bind {x : Traced EmitError α} {f : α → Traced EmitError β} (hx : Ends good bad x)
    (hf : ∀ a, good a → Ends good' bad (f a)) : Ends good' bad (x >>= f) := by
  unfold Ends
  rw [Traced.outcome_bind]
  rcases hx with ⟨a, ha, hgood⟩ | ⟨e, he, hbad⟩
  · rw [ha]
    exact hf a hgood
  · rw [he]
    exact .inr ⟨e, rfl, hbad⟩

lemma mapM {f : α → Traced EmitError β} {xs : List α} (h : ∀ x ∈ xs, Ends good' bad (f x)) :
    Ends (fun ys => ∀ y ∈ ys, good' y) bad (xs.mapM f) := by
  induction xs with
  | nil => exact pure (by simp)
  | cons x xs ih =>
    obtain ⟨hx, hxs⟩ := List.forall_mem_cons.mp h
    rw [List.mapM_cons]
    exact bind hx fun y hy => bind (ih hxs) fun ys hys => pure (List.forall_mem_cons.mpr ⟨hy, hys⟩)

end Ends

/-- A method comes out verified, or generation fails in a way that is expected. -/
abbrev Sound (program : String) (owner : Owner) (bad : EmitError → Prop)
    (x : Traced EmitError Method) : Prop :=
  Ends (Verified program owner) bad x

lemma method_sound {bad : EmitError → Prop} {n : Nat} {body : Gen (List Op)}
    (hargs : (role.args program owner).length ≤ n) (hfail : FailsOnly bad body)
    (hbody : ∀ ops t, body (.startingAt n) = .ok (ops, t) → Body program owner role n ops t) :
    Sound program owner bad (method role n body) := by
  cases hrun : body (.startingAt n) with
  | error e =>
    refine .inr ⟨e, ?_, hfail _ _ hrun⟩
    simp [method, hrun, Traced.fail]
  | ok r =>
    obtain ⟨ops, t⟩ := r
    obtain ⟨m, hassemble, hverified⟩ := (hbody ops t hrun).verified hargs
    refine .inl ⟨_, ?_, hverified⟩
    simp [method, hrun, hassemble]

lemma superInit_carries {s : Supply} {L : Nat → Option Word} {className : String}
    (hR : Ready noVariables program s L) (hself : L 0 = some (.ref (.object className))) :
    Carries program s s ⟨[], L⟩ superInit ⟨[], L⟩ := by
  refine (load_carries hR hself rfl).append (stack_carries ?_ ?_)
  · simp [Straight, Instr.straight]
  · simp [Instr.onStack, Instr.host?, Primitive.expand, HostOp.run_singleton, HostOp.check, takeAll,
      Desc.takes, Desc.anything]

lemma flow_ret {ctx : Context} {frames : Label → Frame} {F : Frame} (h : ctx.result = none) :
    Flow ctx frames [] (.live F) [.ret none] (.dead F.stack.length) :=
  ⟨_, .stop rfl (by simp [check, h]) (by simp [Instr.targets]), le_refl (Point.dead _)⟩

theorem programConstructor_sound {bad : EmitError → Prop} :
    Sound program .program bad programConstructor := by
  refine method_sound (by simp [MethodRole.args]) (.pure _) fun ops t h => ?_
  simp only [Gen.pure_ok] at h
  obtain ⟨rfl, rfl⟩ := h
  have hR : Ready noVariables program (.startingAt 1) _ :=
    ready_entry .program .constructor (by simp [MethodRole.args])
  have hinit := superInit_carries hR rfl
  refine ⟨?_, written_asm _, 0, hinit.mono fun ctx frames hflow hresult => ?_⟩
  · rw [emitted_asm]
    exact .unlabelled rfl rfl
  · rw [emitted_asm]
    exact hflow.append (flow_ret hresult)

theorem recordConstructor_sound {bad : EmitError → Prop} (r : RecordTy) :
    Sound program (.record r.name) bad (recordConstructor r) := by
  refine method_sound (by simp [MethodRole.args])
    (.bind (initFields_failsOnly _ _) fun _ => .pure _) fun ops t h => ?_
  simp only [Gen.bind_ok, Gen.pure_ok] at h
  obtain ⟨code, u, hcode, rfl, rfl⟩ := h
  have hR : Ready noVariables program (.startingAt 1) _ :=
    ready_entry (.record r.name) .constructor (by simp [MethodRole.args])
  have hinit := superInit_carries hR rfl
  have hspan := (initFields_spans _ _ _ _ _ hcode).1
  obtain ⟨-, hfields⟩ := initFields_carries hcode hR rfl
  have hall := hinit.append (hfields [])
  refine ⟨?_, written_asm _, 0, hall.mono fun ctx frames hflow hresult => ?_⟩
  · rw [emitted_asm]
    exact (Span.append (.unlabelled rfl rfl) hspan).append (.unlabelled rfl rfl)
  · rw [emitted_asm]
    exact hflow.append (flow_ret hresult)

/-- All variables of a body are set. -/
lemma Ready.of_vars {Γ : Variables} {s : Supply} {L : Nat → Option Word}
    (h : Ready noVariables program s L)
    (hvars : ∀ {n d}, Γ.slots[n]? = some d → L n = some (Desc.ofParam program d).word) :
    Ready Γ program s L where
  vars := hvars
  slots_le := by
    rcases Nat.eq_zero_or_pos Γ.slots.length with h0 | hpos
    · omega
    · have hlast : Γ.slots[Γ.slots.length - 1]? = some Γ.slots[Γ.slots.length - 1] := by simp
      have hlt := h.lt_slot (hvars hlast)
      omega
  slot_le := h.slot_le
  free := h.free

theorem mainMethod_sound {policy : CasePolicy} {p : Program} (h : p.WellTyped) :
    Sound program .program (ConstantClash policy) (mainMethod policy p) := by
  obtain ⟨Γ, -, hslots, hbody⟩ := h.body
  rw [Sound, Ends, mainMethod, Traced.outcome_reported]
  refine method_sound (by simp [MethodRole.args]) (.bind (initGlobals_failsOnly _) fun _ =>
    .bind (stmt_failsOnly hbody) fun _ => .pure _) fun ops t hops => ?_
  simp only [Gen.bind_ok, Gen.pure_ok] at hops
  obtain ⟨codeG, u, hG, codeB, v, hB, rfl, rfl⟩ := hops
  have hR : Ready noVariables program (.startingAt 1) _ :=
    ready_entry .program .main (by simp [MethodRole.args])
  have hspanG := (initGlobals_spans _ _ _ _ hG).1
  obtain ⟨hspanB, -, hwritten⟩ := stmt_spans policy p.body _ _ _ hB
  obtain ⟨hR', hG⟩ := initGlobals_pushes p.globals _ _ _ _ hG hR
  have hR'' : Ready Γ program u _ := hR'.of_vars (by simp [hslots])
  obtain ⟨-, hB⟩ := stmt_keeps hbody _ _ _ _ hB hR''
  have hopen : Carries program (.startingAt 1) (.startingAt 1) (entryFrame program .program .main)
      [.invoke .openInput] (entryFrame program .program .main) :=
    stack_carries (by simp [Straight, Instr.straight]) rfl
  have hall := (hopen.append (hG [])).append (hB [])
  refine ⟨?_, by simp [hwritten], 0, hall.mono fun ctx frames hflow hresult => ?_⟩
  · simp only [emitted_append, emitted_asm]
    exact ((Span.append (.unlabelled rfl rfl) hspanG).append hspanB).append (.unlabelled rfl rfl)
  · simp only [emitted_append, emitted_asm]
    exact hflow.append (flow_ret hresult)

/-- The result of a function is its last variable. -/
lemma slot_result {globals : List (String × Ty)} {r : Routine} (h : r.WellTyped globals) {v : Local}
    (hv : r.result = some v) : v.slot = r.signature.params.length + r.locals.length := by
  have hslot := congrArg (·[r.locals.length]?) h.slots
  simpa [hv] using hslot

/-- The slots of the variables of a routine are set once they got their initial values. -/
lemma layout_set {r : Routine} {L : Nat → Option Word}
    (hparams : ∀ n < r.signature.params.length,
      L n = (entryFrame program .program (.routine (.ofSignature r.signature))).locals n)
    (hvars : ∀ n v, (r.locals ++ r.result.toList)[n]? = some v →
      L (r.signature.params.length + n) = some (Word.ofTy program v.ty))
    {n : Nat} {d : ParamDesc} (hd : r.layout[n]? = some d) :
    L n = some (Desc.ofParam program d).word := by
  unfold Routine.layout at hd
  rcases Nat.lt_or_ge n r.signature.params.length with hlt | hge
  · rw [List.getElem?_append_left (by simpa using hlt)] at hd
    rw [hparams n hlt]
    simp only [entryFrame, MethodRole.args, MethodRef.ofSignature, List.getElem?_map] at hd ⊢
    rw [hd]
    rfl
  · rw [List.getElem?_append_right (by simpa using hge), List.getElem?_map, List.length_map] at hd
    obtain ⟨v, hv, rfl⟩ := Option.map_eq_some_iff.mp hd
    have hset := hvars _ v hv
    rwa [Nat.add_sub_cancel' hge] at hset

/-- The result is loaded and returned. -/
lemma leave_flow {r : Routine} {globals : List (String × Ty)} (h : r.WellTyped globals)
    {ctx : Context} {frames : Label → Frame} {L : Nat → Option Word}
    (hresult : ctx.result = r.signature.result.map (Word.ofTy ctx.program))
    (hset : ∀ v, r.result = some v → v.slot < ctx.slots ∧ L v.slot = some (Word.ofTy ctx.program v.ty)) :
    Flow ctx frames [] (.live ⟨[], L⟩) (leave r.result) (.dead 0) := by
  rw [← h.result] at hresult
  cases hr : r.result with
  | none =>
    rw [hr] at hresult
    exact flow_ret hresult
  | some v =>
    rw [hr] at hresult
    obtain ⟨hlt, hset⟩ := hset v hr
    have hload : check ctx (.load (.ofTy v.ty) v.slot) ⟨[], L⟩ =
        some ⟨[Word.ofTy ctx.program v.ty], L⟩ := by
      simp [check, hset, hlt]
    have hret : check ctx (.ret (some (.ofTy v.ty))) ⟨[Word.ofTy ctx.program v.ty], L⟩ =
        some ⟨[], L⟩ := by
      simp [check, hresult]
    exact ⟨_, .next (by simp) rfl hload (by simp [Instr.targets]), _,
      .stop rfl hret (by simp [Instr.targets]), le_refl (Point.dead _)⟩

theorem routineMethod_sound {policy : CasePolicy} {globals : List (String × Ty)} {r : Routine}
    (h : r.WellTyped globals) :
    Sound program .program (ConstantClash policy) (routineMethod policy r) := by
  obtain ⟨Γ, -, hslots, hbody⟩ := h.body
  have hargs : ((MethodRole.routine (.ofSignature r.signature)).args program .program).length ≤
      r.nextSlot := by
    simp [MethodRole.args, MethodRef.ofSignature, h.nextSlot, Routine.layout]
  rw [Sound, Ends, routineMethod, Traced.outcome_report_bind, Traced.outcome_reported]
  refine method_sound hargs (.bind (initLocals_failsOnly _) fun _ =>
    .bind (stmt_failsOnly hbody) fun _ => .pure _) fun ops t hops => ?_
  simp only [Gen.bind_ok, Gen.pure_ok] at hops
  obtain ⟨codeL, u, hL, codeB, v, hB, rfl, rfl⟩ := hops
  have hR : Ready noVariables program (.startingAt r.nextSlot) _ :=
    ready_entry .program (.routine (.ofSignature r.signature)) hargs
  have hspanL := (initLocals_spans _ _ _ _ hL).1
  obtain ⟨hspanB, -, hwritten⟩ := stmt_spans policy r.body _ _ _ hB
  have hroom : r.signature.params.length + (r.locals ++ r.result.toList).length ≤
      (Supply.startingAt r.nextSlot).slot := by
    simp [Supply.startingAt, h.nextSlot, Routine.layout]
  obtain ⟨L, hR₁, hparams, hvars, hL⟩ := initLocals_carries h.slots hroom hL hR
  have hR₂ : Ready Γ program u L := hR₁.of_vars fun hd => layout_set hparams hvars (hslots ▸ hd)
  obtain ⟨hR₃, hB⟩ := stmt_keeps hbody _ _ _ _ hB hR₂
  refine ⟨?_, by simp [hwritten], 0, ?_⟩
  · simp only [emitted_append, emitted_asm]
    exact (hspanL.append hspanB).append (leave_span _)
  · have hall := (hL []).append (hB [])
    refine ⟨hall.label_le, hall.peak_le, hall.framed.mono fun frames hframes ctx hp hslots hctx => ?_⟩
    subst hp
    simp only [emitted_append, emitted_asm]
    refine (hframes ctx rfl hslots).append (leave_flow h hctx fun x hx => ?_)
    have hset : L x.slot = some (Word.ofTy ctx.program x.ty) := by
      rw [slot_result h hx]
      exact hvars _ _ (by simp [hx])
    exact ⟨hR₃.lt_slots hset hslots, hset⟩

/-- All methods of a class are verified. -/
def ClassVerified (program : String) (c : ClassFile) : Prop :=
  ∀ m ∈ c.methods, Verified program c.role m

lemma recordClass_ends {bad : EmitError → Prop} (r : RecordTy) :
    Ends (ClassVerified program) bad (recordClass r) := by
  have hinit : Sound program (.record r.name) bad (recordConstructor r) := recordConstructor_sound r
  exact hinit.bind fun m hm => .pure (by simpa [ClassVerified] using hm)

lemma programClass_ends {policy : CasePolicy} {p : Program} (h : p.WellTyped) :
    Ends (ClassVerified program) (ConstantClash policy) (programClass policy p) := by
  have hinit : Sound program .program (ConstantClash policy) programConstructor :=
    programConstructor_sound
  have hroutines : Ends (fun ms => ∀ m ∈ ms, Verified program .program m) (ConstantClash policy)
      (p.routines.mapM (routineMethod policy)) :=
    .mapM fun r hr => routineMethod_sound (h.routines r hr)
  have hmain : Sound program .program (ConstantClash policy) (mainMethod policy p) :=
    mainMethod_sound h
  refine hinit.bind fun c hc => hroutines.bind fun rs hrs => hmain.bind fun m hm => .pure ?_
  intro x hx
  simp only [List.mem_append, List.mem_singleton] at hx
  rcases hx with (rfl | hx) | rfl
  · exact hc
  · exact hrs x hx
  · exact hm

/-- A well-typed program becomes classes that the verifier accepts, unless two branches of a
case statement clash. -/
theorem program_ends (program : String) {policy : CasePolicy} {p : Program} (h : p.WellTyped) :
    Ends (fun classes => ∀ c ∈ classes, ClassVerified program c) (ConstantClash policy)
      (Emit.program policy p) := by
  have hown : Ends (ClassVerified program) (ConstantClash policy) (programClass policy p) :=
    programClass_ends h
  have hrecords : Ends (fun cs => ∀ c ∈ cs, ClassVerified program c) (ConstantClash policy)
      (p.records.mapM recordClass) :=
    .mapM fun r _ => recordClass_ends r
  exact hown.bind fun c hc => hrecords.bind fun cs hcs =>
    .pure (List.forall_mem_cons.mpr ⟨hc, hcs⟩)

end Methods

end PascalJvm.Emit
