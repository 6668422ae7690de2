import Mathlib.Tactic
import PascalJvm.Proofs.Console
import PascalJvm.Proofs.Formats
import PascalJvm.Proofs.NestedCalls

/-!
# Write statements

The code of a write statement prints once. Text alone is printed as it is. With values it hands
the formatter a text and an array of objects; the text is read as the arguments
(`Formatted.read_formatText`), and the array has one element for each value, evaluated from left
to right and wrapped in the class that its conversion letter takes.
-/
namespace PascalJvm

open Jvm Typed

/-- The two forms of the code of a write statement. -/
lemma Emit.write_ok {Γ : Variables} (line : Bool) {args : List WriteArg}
    (h : ∀ a ∈ args, a.WellTyped Γ) (hargs : args ≠ []) (s : Supply) :
    ∃ block t, write line args s = .ok (block, t) ∧
      ((writtenValues args = [] ∧
        block = [Instr.invoke .standardOutput, .pushText (formatText line args)] ++
          [Instr.invoke .printPlain]) ∨
      (writtenValues args ≠ [] ∧ ∃ fill, fillObjects 0 (writtenValues args) s = .ok (fill, t) ∧
        block = [Instr.invoke .standardOutput, .pushText (formatText line args)] ++
          [Instr.pushInt (Int32.ofNat (writtenValues args).length), .newObjectArray] ++ fill ++
          [Instr.invoke .printFormatted, .pop])) := by
  have hfails : FailsOnly (fun _ => False) (write line args) := write_failsOnly h
  cases hwrite : write line args s with
  | error e => exact (hfails s e hwrite).elim
  | ok r =>
    obtain ⟨block, t⟩ := r
    refine ⟨block, t, rfl, ?_⟩
    unfold write at hwrite
    rw [if_neg (by simpa using hargs)] at hwrite
    rcases hvalues : writtenValues args with _ | ⟨e, es⟩
    · simp only [hvalues, Gen.pure_ok] at hwrite
      exact .inl ⟨rfl, hwrite.1.symm⟩
    · simp only [hvalues, Gen.bind_ok, Gen.pure_ok] at hwrite
      obtain ⟨fill, u, hfill, rfl, rfl⟩ := hwrite
      exact .inr ⟨by simp, fill, hfill, rfl⟩

namespace Run

namespace Console

variable {w : Console} {Γ : Variables} {K : Set Nat} {σ₀ σ μ : Store} {n a size : Nat}
  {st : List Value}

lemma newObjectArray_runs (hagree : Agree n σ μ) (m : Int32) :
    w.Runs [.newObjectArray] ⟨.int m :: st, μ⟩ (w.newObjects m σ) fun r s' =>
      s'.stack = .ref r.1 :: st ∧ Agree n r.2 s'.store := by
  unfold newObjects
  split_ifs with hm
  · refine .alloc ?_ hagree
    rw [output, newObjects, if_pos hm]
  · refine .trap ?_
    rw [output, newObjects, if_neg hm]
    rfl

lemma wrap_runs (hagree : Agree n σ μ) (t : Ty) (v : Value) :
    w.Runs (Emit.wrap t) ⟨v :: st, μ⟩ (w.objectFor t v σ) fun r s' =>
      s'.stack = r.1 :: st ∧ Agree n r.2 s'.store := by
  unfold Emit.wrap objectFor
  cases Wrapper.ofKind? (.ofTy t) with
  | some k =>
    have hwrap : w.Runs [.invoke (.wrap k)] ⟨v :: st, μ⟩ (w.wrap k v σ) fun r s' =>
        s'.stack = .ref r.1 :: st ∧ Agree n r.2 s'.store := by
      unfold wrap
      split_ifs with hk
      · refine .alloc ?_ hagree
        rw [output, wrap, if_pos hk]
      · exact .stuck
    exact hwrap.recast fun r s' _ hr => ⟨_, rfl, hr⟩
  | none => exact .nil ⟨rfl, hagree⟩

lemma arrayStore_runs (hagree : Agree n σ μ) (x : Value) (i : Int32) :
    w.Runs [Instr.arrayStore .ref] ⟨x :: .int i :: .ref a :: st, μ⟩
      (σ.write .ref x (.element a i.toInt)) fun τ s' => s'.stack = st ∧ Agree n τ s'.store := by
  have hclear : (Location.element a i.toInt).Clear n ∅ := Set.notMem_empty a
  refine .of_world (.straight (f := fun τ => ⟨st, τ.over n μ⟩)
    (by simp [Straight, Instr.straight]) (Quiet.spares (by simp [Quiet]) ∅) ?_
    fun τ _ => ⟨rfl, agree_over ..⟩)
  rw [workAll_singleton]
  change (μ.write .ref x (.element a i.toInt) >>= _) = _
  rw [hagree.write hclear]
  simp

/-- Each value is put into the array at its index. -/
lemma fillObjects_runs (hw : w.Sound Γ.statics) (hσ₀ : σ₀.WellTyped Γ.statics Γ.slots)
    (hsize : size < 2 ^ 31) {es : List Expr}
    (hes : ∀ e ∈ es, e.WellTyped Γ ∧ e.ty.isAggregate = false) {done : List Item}
    (h : Filling Γ σ₀ a size done K σ) {s t : Emit.Supply} {code : List Instr}
    (hcode : Emit.fillObjects done.length es s = .ok (code, t)) (hs : Γ.slots.length ≤ s.slot)
    (hagree : Agree Γ.slots.length σ μ) :
    w.Runs code ⟨.ref a :: st, μ⟩ (w.fill a done.length es σ) fun r s' =>
      s'.stack = .ref a :: st ∧ Agree Γ.slots.length r.2 s'.store := by
  induction es generalizing done K σ μ s t code with
  | nil =>
    obtain ⟨rfl, rfl⟩ := Emit.Gen.pure_ok.mp hcode
    exact .nil ⟨rfl, hagree⟩
  | cons e es ih =>
    obtain ⟨⟨he, hscalar⟩, hes⟩ := List.forall_mem_cons.mp hes
    simp only [Emit.fillObjects, Emit.Gen.bind_ok, Emit.Gen.pure_ok] at hcode
    obtain ⟨codeE, u, hE, more, v, hmore, rfl, rfl⟩ := hcode
    have hslot := (Emit.expr_spans e _ _ _ hE).2
    have hvalue : w.Runs ([Instr.dup, .pushInt (Int32.ofNat done.length)] ++ codeE)
        ⟨.ref a :: st, μ⟩ (w.value e σ) fun r s' =>
          s'.stack = r.1 :: .int (Int32.ofNat done.length) :: .ref a :: .ref a :: st ∧
            Agree Γ.slots.length r.2 s'.store :=
      .of_world (.prepend (by simp [Straight, Instr.straight]) (Quiet.spares (by simp [Quiet]) _)
        rfl (World.expr_computes hw e he hE hs h.sound hagree _))
    have hassoc : [Instr.dup, .pushInt (Int32.ofNat done.length)] ++ codeE ++ Emit.wrap e.ty ++
        [Instr.arrayStore .ref] ++ more =
          ([Instr.dup, .pushInt (Int32.ofNat done.length)] ++ codeE) ++
          (Emit.wrap e.ty ++ ([Instr.arrayStore .ref] ++ more)) := by
      simp only [List.append_assoc]
    rw [hassoc]
    refine hvalue.append fun (v, σ₁) ⟨stack, μ₁⟩ hv ⟨hstack, hagree⟩ => ?_
    obtain rfl : stack = _ := hstack
    obtain ⟨h₁, hty⟩ := (h.value hw he).of_ok hv
    refine (wrap_runs hagree e.ty v).append fun (x, σ₂) ⟨stack, μ₂⟩ hx ⟨hstack, hagree⟩ => ?_
    obtain rfl : stack = _ := hstack
    obtain ⟨K₂, h₂, hitem, hhidden⟩ := (h₁.objectFor hw hscalar hty).of_ok hx
    refine (arrayStore_runs hagree x _).append fun σ₃ ⟨stack, μ₃⟩ hwrite ⟨hstack, hagree⟩ => ?_
    obtain rfl : stack = _ := hstack
    have h₃ := (h₂.set hσ₀ hsize hitem hhidden).of_ok hwrite
    have hlength : (done ++ [Item.ofTy e.ty v]).length = done.length + 1 := List.length_append
    have hrest := ih hes h₃ (hlength ▸ hmore) (hslot ▸ hs) hagree
    rw [hlength] at hrest
    exact hrest.recast fun r s' _ hr => ⟨_, rfl, hr⟩

/-- The values are gathered in an array on the stack. -/
lemma gather_runs (hw : w.Sound Γ.statics) (hσ : σ.Sound Γ.statics Γ.slots K) {es : List Expr}
    (hes : ∀ e ∈ es, e.WellTyped Γ ∧ e.ty.isAggregate = false) {s t : Emit.Supply}
    {code : List Instr} (hcode : Emit.fillObjects 0 es s = .ok (code, t))
    (hs : Γ.slots.length ≤ s.slot) (hagree : Agree Γ.slots.length σ μ) (st : List Value) :
    w.Runs ([Instr.pushInt (Int32.ofNat es.length), .newObjectArray] ++ code) ⟨st, μ⟩
      (w.gather es σ) fun r s' => ∃ a, s'.stack = .ref a :: st ∧ Agree Γ.slots.length r.2 s'.store ∧
        Suits es r.1 ∧ items s'.store a = .ok (itemsOf es r.1) := by
  have hpush : w.Runs [Instr.pushInt (Int32.ofNat es.length)] ⟨st, μ⟩ (.ok ()) fun _ s' =>
      s' = ⟨.int (Int32.ofNat es.length) :: st, μ⟩ :=
    .of_world (.straight (f := fun _ => ⟨.int (Int32.ofNat es.length) :: st, μ⟩)
      (by simp [Straight, Instr.straight]) (Quiet.spares (by simp [Quiet]) ∅) rfl fun _ _ => rfl)
  refine hpush.append (f := fun _ => w.gather es σ) fun _ s' _ hs' => ?_
  subst hs'
  refine (newObjectArray_runs hagree _).append fun r s' hnew hout => ?_
  obtain ⟨a, τ⟩ := r
  obtain ⟨stack, ν⟩ := s'
  obtain ⟨hstack, hagree⟩ := hout
  obtain rfl : stack = .ref a :: st := hstack
  obtain ⟨hn, hstart⟩ := (Filling.start hw hσ _).of_ok hnew
  have hsize := (toNat_ofNat_le hn).2
  refine (fillObjects_runs hw hσ.wellTyped hsize hes hstart hcode hs hagree).imp
    fun r s' hfill hout => ?_
  obtain ⟨vs, υ⟩ := r
  obtain ⟨hstack, hagree⟩ := hout
  obtain ⟨hsuits, K', hfilled⟩ := (hstart.fill hw hσ.wellTyped hsize hes).of_ok hfill
  refine ⟨a, hstack, hagree, hsuits, ?_⟩
  rw [items, hagree.heap]
  exact hfilled.items hn (by simp [itemsOf, hsuits.length_eq])

section

variable {code : List Instr} {pc : Nat} {line : Bool} {args : List WriteArg} {log : List Print}

/-- The stream and the text are pushed first. -/
lemma leads_start {text : String}
    (hcode : CodeAt code pc [Instr.invoke .standardOutput, .pushText text]) :
    w.Leads code (⟨pc, st, μ⟩, log) (⟨pc + 2, .text text :: .ref w.stream :: st, μ⟩, log) := by
  simp only [codeAt_cons, codeAt_nil, and_true] at hcode
  have hstream : w.Leads code (⟨pc, st, μ⟩, log) (⟨pc + 1, .ref w.stream :: st, μ⟩, log ++ []) :=
    .of_output hcode.1 rfl
  rw [List.append_nil] at hstream
  exact hstream.trans (Leads.of_step (step_of_act hcode.2 rfl rfl))

/-- Text alone is printed as it is. -/
lemma plain_leads {text : String} (hcode : CodeAt code pc
    ([Instr.invoke .standardOutput, .pushText text] ++ [Instr.invoke .printPlain])) :
    w.Leads code (⟨pc, st, μ⟩, log) (⟨pc + 3, st, μ⟩, log ++ [.plain text]) := by
  rw [codeAt_append, codeAt_singleton] at hcode
  refine (leads_start hcode.1).trans (Leads.of_output hcode.2 ?_)
  rw [output, if_pos rfl]

/-- The formatter is called once, with the text and all the values. -/
lemma formatted_follows {text : String} {es : List Expr} {fill : List Instr}
    (hn : (boundLabels code).Nodup)
    (hgather : w.Runs ([Instr.pushInt (Int32.ofNat es.length), .newObjectArray] ++ fill)
      ⟨.text text :: .ref w.stream :: st, μ⟩ (w.gather es σ) fun r s' =>
        ∃ a, s'.stack = .ref a :: .text text :: .ref w.stream :: st ∧ Agree n r.2 s'.store ∧
          Suits es r.1 ∧ items s'.store a = .ok (itemsOf es r.1))
    (hcode : CodeAt code pc ([Instr.invoke .standardOutput, .pushText text] ++
      [Instr.pushInt (Int32.ofNat es.length), .newObjectArray] ++ fill ++
      [Instr.invoke .printFormatted, .pop])) :
    w.Follows code ⟨pc, st, μ⟩ log (w.gather es σ) fun r d log' =>
      d.pc = pc + (fill.length + 6) ∧ d.state.stack = st ∧ Agree n r.2 d.state.store ∧
        Suits es r.1 ∧ log' = log ++ [.formatted text (itemsOf es r.1)] := by
  rw [List.append_assoc _ _ fill, codeAt_append, codeAt_append, List.length_append,
    ← Nat.add_assoc] at hcode
  obtain ⟨⟨hstart, hfill⟩, hprint⟩ := hcode
  simp only [codeAt_cons, codeAt_nil, and_true] at hprint
  refine .after (leads_start hstart) ((hgather hn hfill).extend ?_)
  rintro r ⟨pc', stack, ν⟩ - ⟨hpc, a, hstack, hagree, hsuits, hitems⟩
  obtain rfl : stack = _ := hstack
  obtain rfl : pc' = _ := hpc
  have hformat : w.output (.invoke .printFormatted)
      ⟨.ref a :: .text text :: .ref w.stream :: st, ν⟩ =
        some (.ok (⟨.ref w.stream :: st, ν⟩, [.formatted text (itemsOf es r.1)])) := by
    rw [output, if_pos rfl, hitems]
    rfl
  refine ⟨_, _, .trans (Leads.of_output hprint.1 hformat)
    (Leads.of_step (step_of_act hprint.2 rfl rfl)), ?_, rfl, hagree, hsuits, rfl⟩
  simp only [List.length_append, List.length_cons, List.length_nil]
  omega

end

end Console

end Run

open Run Typed in
/-- Take any write statement with arguments in a checked program. If it writes text alone, its code
prints the text as it is, with a new line at the end of a line. If it writes values, its code
gathers them from left to right and prints once: a text that the formatter reads as the
arguments, in order, each value with its width and its precision, and one object for each value,
of a class that the conversion letter takes. If a value has no result, nothing is printed. -/
theorem write_prints_arguments {source : List Char} {p : Source.Program} {env : Environment}
    {q : Program} (hparse : Source.Program.parse source = .ok p)
    (henv : Environment.ofProgram p = .ok env) (hcheck : (Check.program env p).outcome = .ok q)
    {body : Stmt} {slots : List ParamDesc} (hbody : (body, slots) ∈ q.bodies) {line : Bool}
    {args : List WriteArg} (hc : (Stmt.write line args).Within body) (hargs : args ≠ [])
    {s : Emit.Supply} (hs : slots.length ≤ s.slot) :
    ∃ block t, Emit.write line args s = .ok (block, t) ∧
      ∀ w : Console, w.Sound q.globals → ∀ code pc, (boundLabels code).Nodup →
        CodeAt code pc block → ∀ σ : Store, σ.Sound q.globals slots ∅ → ∀ st log,
        (∃ literals : List String, args = literals.map .literal ∧
          w.Leads code (⟨pc, st, σ⟩, log) (⟨pc + block.length, st, σ⟩,
            log ++ [.plain (String.join literals ++ if line then "\n" else "")])) ∨
        (Emit.writtenValues args ≠ [] ∧ w.gather (Emit.writtenValues args) σ ≠ .error .stuck ∧
          w.Follows code ⟨pc, st, σ⟩ log (w.gather (Emit.writtenValues args) σ)
            fun (vs, τ) d log' => d.pc = pc + block.length ∧ d.state.stack = st ∧
              Agree slots.length τ d.state.store ∧ Suits (Emit.writtenValues args) vs ∧
              ∃ text, log' = log ++ [.formatted text (itemsOf (Emit.writtenValues args) vs)] ∧
                Formatted.read text.toList = some (args.flatMap Formatted.pieces ++
                  if line then [.char '\n'] else [])) := by
  obtain ⟨Γ, hstatics, rfl, hwt⟩ := (wellTyped_of_checked hparse henv hcheck).statement hbody hc
  have hwt : ∀ a ∈ args, a.WellTyped Γ := hwt
  have hvalues := Emit.writtenValues_wellTyped hwt
  obtain ⟨block, t, hblock, hforms⟩ := Emit.write_ok line hwt hargs s
  refine ⟨block, t, hblock, fun w hw code pc hn hcode σ hσ st log => ?_⟩
  rw [← hstatics] at hw hσ
  rcases hforms with ⟨hnone, rfl⟩ | ⟨hsome, fill, hfill, rfl⟩
  · left
    obtain ⟨literals, hliterals, htext⟩ := Formatted.formatText_of_literals hnone
    refine ⟨literals, hliterals, ?_⟩
    rw [← htext]
    exact Console.plain_leads hcode
  · right
    refine ⟨hsome, (gather_safe hw hσ hvalues).ne_stuck, ?_⟩
    have hgather := Console.gather_runs hw hσ hvalues hfill hs (.refl _ σ)
      (.text (Emit.formatText line args) :: .ref w.stream :: st)
    refine (Console.formatted_follows hn hgather hcode).imp fun (vs, τ) d log' _ hout => ?_
    obtain ⟨hpc, hstack, hagree, hsuits, rfl⟩ := hout
    refine ⟨?_, hstack, hagree, hsuits, _, rfl, Formatted.read_formatText hwt hsome⟩
    rw [hpc]
    simp only [List.length_append, List.length_cons, List.length_nil]
    omega

/-- A write statement with a percent sign in its text. -/
def tallySource : List Char :=
  "program p; begin writeln('100% of ', 42:-5, '|', 2.5:8:2, 1 < 2) end.".toList

section

open Run Typed

/-- A store without variables and objects. -/
def emptyStore : Store := ⟨fun _ => none, fun _ => none, fun _ => none⟩

lemma emptyStore_sound : emptyStore.Sound [] [] ∅ where
  wellTyped := ⟨fun h => (nomatch h), fun h => (nomatch h)⟩
  shared := ⟨fun h => h.elim, fun h => (nomatch h), fun _ h => (nomatch h)⟩
  slots h := nomatch h

def bumpConsole : Console := { bumpWorld with stream := 64 }

/-- The arguments of a write statement, with whether it ends the line. -/
def written? : Stmt → Option (Bool × List WriteArg)
  | .write line args => some (line, args)
  | _ => none

lemma eq_of_written? {c : Stmt} {line : Bool} {args : List WriteArg}
    (h : written? c = some (line, args)) : c = .write line args := by
  unfold written? at h
  split at h
  next => cases h; rfl
  next => cases h

/-- What `tallySource` writes. -/
def tallyPieces : List Formatted.Piece :=
  "100% of ".toList.map .char ++ [.directive ⟨true, some 5, none, 'd'⟩, .char '|',
    .directive ⟨false, some 8, some 2, 'f'⟩, .directive ⟨false, none, none, 'b'⟩, .char '\n']

theorem tallySource_is_written : ∃ q line args block t text e,
    (Compile.checked tallySource).outcome = .ok q ∧
    Emit.write line args (.startingAt 0) = .ok (block, t) ∧
    Formatted.read text.toList = some tallyPieces ∧ e.pc = block.length ∧
    bumpConsole.Leads block (⟨0, [], emptyStore⟩, []) (e, [.formatted text
      [⟨some .int, .int 42⟩, ⟨some .float, .real ⟨1075838976⟩⟩, ⟨some .bool, .int 1⟩]]) := by
  have hresult : ((Compile.checked tallySource).outcome.toOption.bind fun q =>
      q.bodies.getLast?.bind fun b => b.1.parts.head?.bind fun c => (written? c).bind fun a =>
        (bumpConsole.gather (Emit.writtenValues a.2) emptyStore).toOption.bind fun r =>
          if q.globals.isEmpty && b.2.isEmpty then
            some (a.1, a.2.flatMap Formatted.pieces, itemsOf (Emit.writtenValues a.2) r.1)
          else none) = some (true, tallyPieces.dropLast,
      [⟨some .int, .int 42⟩, ⟨some .float, .real ⟨1075838976⟩⟩, ⟨some .bool, .int 1⟩]) := by
    decide +kernel
  obtain ⟨q, hq, hresult⟩ := Option.bind_eq_some_iff.mp hresult
  obtain ⟨⟨body, slots⟩, hbody, hresult⟩ := Option.bind_eq_some_iff.mp hresult
  obtain ⟨c, hc, hresult⟩ := Option.bind_eq_some_iff.mp hresult
  obtain ⟨⟨line, args⟩, hargs, hresult⟩ := Option.bind_eq_some_iff.mp hresult
  obtain ⟨⟨vs, τ⟩, hgather, hresult⟩ := Option.bind_eq_some_iff.mp hresult
  rw [toOption_eq_some] at hq hgather
  split_ifs at hresult with hnone
  simp only [Option.some.injEq, Prod.mk.injEq] at hresult
  obtain ⟨rfl, hpieces, hitems⟩ := hresult
  simp only [Bool.and_eq_true, List.isEmpty_iff] at hnone
  obtain ⟨hglobals, rfl⟩ := hnone
  obtain rfl : c = .write true args := eq_of_written? hargs
  have hnonempty : args ≠ [] := by
    rintro rfl
    cases hpieces
  obtain ⟨p, env, hparse, henv, hcheck⟩ := Compile.checked_ok.mp hq
  obtain ⟨block, t, hblock, hall⟩ :=
    write_prints_arguments hparse henv hcheck (List.mem_of_getLast? hbody)
      (.single (List.mem_of_head? hc)) hnonempty (s := .startingAt 0) le_rfl
  have hn := (Emit.write_spans true args _ _ _ hblock).1.nodup
  rw [hglobals] at hall
  rcases hall bumpConsole (bumpWorld_sound []) block 0 hn codeAt_self
    emptyStore emptyStore_sound [] [] with ⟨literals, rfl, -⟩ | ⟨-, -, hfollows⟩
  · have hvalues : Emit.writtenValues (literals.map .literal) = [] := by
      rw [Emit.writtenValues, List.filterMap_map]
      exact List.filterMap_none literals
    rw [hvalues] at hitems
    cases hitems
  · obtain ⟨e, log, he, hpc, -, -, -, text, rfl, htext⟩ := hfollows.reaches hgather
    refine ⟨q, true, args, block, t, text, e, hq, hblock, ?_, by simpa using hpc, ?_⟩
    · rw [htext, hpieces]
      rfl
    · rw [hitems] at he
      exact he

end

end PascalJvm
