import Mathlib.Tactic
import PascalJvm.Jvm.Listing
import PascalJvm.Proofs.ControlFlow
import PascalJvm.Proofs.WellTyped

/-!
# A type verifier for method bodies

A frame gives a type to every operand on the stack and to every slot that is known to be set:
an integer, a float, or a reference with its descriptor. `check` runs one instruction on
frames. The operations of the host that an instruction stands for are checked one by one
(`HostOp`), so that the stack is followed inside of a construction or a call as well. A method
is `Verified` when there is a frame for each of its positions on which all ways to the position
agree.
-/
namespace PascalJvm.Jvm

/-- What a field, an array element or a parameter holds. -/
inductive Desc
  | int
  | float
  | bool
  | char
  | object (className : String)
  | array (elem : Desc)
deriving DecidableEq, Repr

/-- How a value is held on the stack or in a slot. -/
inductive Word
  | int
  | float
  | ref (d : Desc)
deriving DecidableEq, Repr

namespace Desc

def text : Desc → String
  | int => "I"
  | float => "F"
  | bool => "Z"
  | char => "C"
  | object className => "L" ++ className ++ ";"
  | array elem => "[" ++ elem.text

/-- How the value is held once it is loaded. -/
def word : Desc → Word
  | int | bool | char => .int
  | float => .float
  | object className => .ref (object className)
  | array elem => .ref (array elem)

def string : Desc := object "java/lang/String"

/-- Every object is one of these. -/
def anything : Desc := object "java/lang/Object"

/-- The values of a type, in the program whose class has the given name. -/
def ofTy (program : String) : Ty → Desc
  | .basic .integer | .enum _ => int
  | .basic .real => float
  | .basic .boolean => bool
  | .basic .char => char
  | .basic .string => string
  | .record r _ => object (Listing.recordClass program r)
  | .array _ _ elem => array (ofTy program elem)

def ofParam (program : String) : ParamDesc → Desc
  | .value t => ofTy program t
  | .cell t => array (ofTy program t)

theorem text_ofTy (program : String) (t : Ty) :
    (ofTy program t).text = Listing.descriptor program t := by
  induction t using ofTy.induct with
  | case1 | case2 | case3 | case4 | case5 | case6 => rfl
  | case7 r fields => rfl
  | case8 low len elem ih => simp [ofTy, text, Listing.descriptor, ih]

/-- A value that is held like this may go where a `d` is wanted. -/
def takes (d : Desc) (w : Word) : Bool :=
  w = d.word || (d = anything && w ≠ .int && w ≠ .float)

@[simp] theorem takes_word (d : Desc) : d.takes d.word = true := by simp [takes]

end Desc

/-- The value of a variable of this type on the stack. -/
def Word.ofTy (program : String) (t : Ty) : Word := (Desc.ofTy program t).word

@[simp] theorem Desc.word_ofTy (program : String) (t : Ty) :
    (Desc.ofTy program t).word = Word.ofTy program t := rfl

/-- A slot of this kind can be held like this. -/
def Kind.holds : Kind → Word → Bool
  | .int, .int | .bool, .int | .char, .int | .float, .float | .ref, .ref _ => true
  | _, _ => false

/-- An array with elements of this kind can have such elements. -/
def Kind.elements : Kind → Desc → Bool
  | .int, .int | .float, .float | .bool, .bool | .char, .char => true
  | .ref, .object _ | .ref, .array _ => true
  | _, _ => false

/-- Take values from the stack, the top one first. -/
def takeAll : List Desc → List Word → Option (List Word)
  | [], stack => some stack
  | d :: ds, w :: stack => if d.takes w then takeAll ds stack else none
  | _ :: _, [] => none

/-- Leave a result on the stack if there is one. -/
def leaving (result : Option Desc) (stack : List Word) : List Word :=
  match result with
  | some d => d.word :: stack
  | none => stack

/-- One operation of the host. -/
inductive HostOp
  | new (className : String)
  | dup
  | getStatic (owner name : String) (d : Desc)
  | putStatic (owner name : String) (d : Desc)
  | invokeSpecial (owner name : String) (params : List Desc)
  | invokeVirtual (owner name : String) (params : List Desc) (result : Option Desc)
  | invokeStatic (owner name : String) (params : List Desc) (result : Option Desc)
deriving DecidableEq, Repr

namespace HostOp

def signatureText (params : List Desc) (result : Option Desc) : String :=
  "(" ++ String.join (params.map Desc.text) ++ ")" ++ (result.map Desc.text).getD "V"

/-- The operation as it stands in a listing. -/
def text : HostOp → String
  | new className => "new " ++ className
  | dup => "dup"
  | getStatic owner name d => "getstatic " ++ owner ++ "/" ++ name ++ " " ++ d.text
  | putStatic owner name d => "putstatic " ++ owner ++ "/" ++ name ++ " " ++ d.text
  | invokeSpecial owner name params =>
      "invokespecial " ++ owner ++ "/" ++ name ++ signatureText params none
  | invokeVirtual owner name params result =>
      "invokevirtual " ++ owner ++ "/" ++ name ++ signatureText params result
  | invokeStatic owner name params result =>
      "invokestatic " ++ owner ++ "/" ++ name ++ signatureText params result

/-- The stack after the operation, if its operands are there. -/
def check : HostOp → List Word → Option (List Word)
  | new className, stack => some (.ref (.object className) :: stack)
  | dup, w :: stack => some (w :: w :: stack)
  | dup, [] => none
  | getStatic _ _ d, stack => some (d.word :: stack)
  | putStatic _ _ d, stack => takeAll [d] stack
  | invokeSpecial owner _ params, stack => takeAll (params.reverse ++ [.object owner]) stack
  | invokeVirtual owner _ params result, stack =>
      (takeAll (params.reverse ++ [.object owner]) stack).map (leaving result)
  | invokeStatic _ _ params result, stack => (takeAll params.reverse stack).map (leaving result)

/-- The stack after all operations, if each finds its operands. -/
def run (ops : List HostOp) (stack : List Word) : Option (List Word) :=
  ops.foldlM (fun st op => op.check st) stack

end HostOp

/-- The operations of the host that a primitive stands for. -/
def Primitive.expand (program : String) : Primitive → List HostOp
  | standardOutput => [.getStatic "java/lang/System" "out" (.object Listing.printStream)]
  | standardInput => [.getStatic program "_sysin" (.object Listing.scanner)]
  | openInput =>
      [.new Listing.scanner, .dup,
        .getStatic "java/lang/System" "in" (.object "java/io/InputStream"),
        .invokeSpecial Listing.scanner "<init>" [.object "java/io/InputStream"],
        .putStatic program "_sysin" (.object Listing.scanner)]
  | objectInit => [.invokeSpecial "java/lang/Object" "<init>" []]
  | printPlain => [.invokeVirtual Listing.printStream "print" [.string] none]
  | printLine => [.invokeVirtual Listing.printStream "println" [] none]
  | printFormatted =>
      [.invokeVirtual Listing.printStream "printf" [.string, .array .anything]
        (some (.object Listing.printStream))]
  | readInt => [.invokeVirtual Listing.scanner "nextInt" [] (some .int)]
  | readFloat => [.invokeVirtual Listing.scanner "nextFloat" [] (some .float)]
  | readBool => [.invokeVirtual Listing.scanner "nextBoolean" [] (some .bool)]
  | readToken => [.invokeVirtual Listing.scanner "next" [] (some .string)]
  | readLine => [.invokeVirtual Listing.scanner "nextLine" [] (some .string)]
  | useDelimiter =>
      [.invokeVirtual Listing.scanner "useDelimiter" [.string] (some (.object Listing.scanner))]
  | resetDelimiter =>
      [.invokeVirtual Listing.scanner "reset" [] (some (.object Listing.scanner))]
  | charAt => [.invokeVirtual "java/lang/String" "charAt" [.int] (some .char)]
  | compareStrings => [.invokeVirtual "java/lang/String" "compareTo" [.string] (some .int)]
  | wrap .int => [.invokeStatic "java/lang/Integer" "valueOf" [.int] (some (.object "java/lang/Integer"))]
  | wrap .float => [.invokeStatic "java/lang/Float" "valueOf" [.float] (some (.object "java/lang/Float"))]
  | wrap .bool => [.invokeStatic "java/lang/Boolean" "valueOf" [.bool] (some (.object "java/lang/Boolean"))]
  | wrap .char =>
      [.invokeStatic "java/lang/Character" "valueOf" [.char] (some (.object "java/lang/Character"))]

/-- Allocation and construction of a record. -/
def expandRecord (program record : String) : List HostOp :=
  [.new (Listing.recordClass program record), .dup,
    .invokeSpecial (Listing.recordClass program record) "<init>" []]

/-- The operations of the host that an instruction stands for, where it names a class or a
method of the host. -/
def Instr.host? (program : String) : Instr → Option (List HostOp)
  | .newRecord r => some (expandRecord program r)
  | .invoke p => some (p.expand program)
  | .invokeStatic m =>
      some [.invokeStatic program m.name (m.params.map (.ofParam program))
        (m.result.map (.ofTy program))]
  | _ => none

/-- The listing of a primitive is the listing of its operations. -/
theorem Primitive.text_expand (program : String) (p : Primitive) :
    (p.expand program).map HostOp.text = Listing.primitive program p := by
  -- only the field of the scanner names the program
  have hfield : ∀ op : String, op ++ program ++ "/" ++ "_sysin" ++ " " ++
      (Desc.object Listing.scanner).text = op ++ Listing.scannerField program := by
    intro op
    simp only [Listing.scannerField, String.append_assoc]
    rfl
  cases p
  case standardInput => exact congrArg ([·]) (hfield "getstatic ")
  case openInput => exact congrArg (_ :: _ :: _ :: _ :: [·]) (hfield "putstatic ")
  case wrap w => cases w <;> rfl
  all_goals rfl

theorem text_expandRecord (program record : String) (name : Label → String) :
    (expandRecord program record).map HostOp.text =
      Listing.operation program name (.newRecord record) := by
  have hinit : HostOp.text (.invokeSpecial (Listing.recordClass program record) "<init>" []) =
      "invokespecial " ++ Listing.recordClass program record ++ "/<init>()V" := by
    show "invokespecial " ++ Listing.recordClass program record ++ "/" ++ "<init>" ++ "()V" = _
    simp only [String.append_assoc]
    rfl
  exact congrArg (_ :: _ :: [·]) hinit

lemma signatureText_eq (program : String) (params : List ParamDesc) (result : Option Ty) :
    HostOp.signatureText (params.map (.ofParam program)) (result.map (.ofTy program)) =
      "(" ++ String.join (params.map (Listing.paramDescriptor program)) ++ ")" ++
        Listing.resultDescriptor program result := by
  have hparams : (params.map (Desc.ofParam program)).map Desc.text =
      params.map (Listing.paramDescriptor program) := by
    rw [List.map_map]
    refine List.map_congr_left fun p _ => ?_
    cases p <;> simp [Desc.ofParam, Desc.text, Desc.text_ofTy, Listing.paramDescriptor]
  have hresult : ((result.map (Desc.ofTy program)).map Desc.text).getD "V" =
      Listing.resultDescriptor program result := by
    cases result <;> simp [Desc.text_ofTy, Listing.resultDescriptor]
  rw [HostOp.signatureText, hparams, hresult]

/-- What the verifier follows is what the listing says. -/
theorem Instr.host_text {program : String} {ins : Instr} {ops : List HostOp}
    (h : ins.host? program = some ops) (name : Label → String) :
    ops.map HostOp.text = Listing.operation program name ins := by
  cases ins <;> cases h
  case newRecord r => exact text_expandRecord program r name
  case invoke p => exact Primitive.text_expand program p
  case invokeStatic m =>
    show ["invokestatic " ++ program ++ "/" ++ m.name ++ HostOp.signatureText _ _] = _
    rw [signatureText_eq]
    rfl

/-- The types of the operands, the top one first, and of the slots that are set. -/
structure Frame where
  stack : List Word
  locals : Nat → Option Word

/-- Whatever the greater frame promises, the lesser one keeps. -/
instance : Preorder Frame where
  le F G := F.stack = G.stack ∧ ∀ n w, G.locals n = some w → F.locals n = some w
  le_refl _ := ⟨rfl, fun _ _ h => h⟩
  le_trans _ _ _ h h' := ⟨h.1.trans h'.1, fun n w hw => h.2 n w (h'.2 n w hw)⟩

/-- What is fixed for a whole method. -/
structure Context where
  program : String
  /-- what the method returns -/
  result : Option Word
  /-- the number of its slots -/
  slots : Nat

/-- The stack after an instruction that works on the stack and is one operation of the host. -/
def Instr.plain (program : String) : Instr → List Word → Option (List Word)
  | .label _, stack => some stack
  | .goto _, stack => some stack
  | .ifZero .., .int :: stack => some stack
  | .ifCompare .., .int :: .int :: stack => some stack
  | .lookupSwitch .., .int :: stack => some stack
  | .pushInt _, stack => some (.int :: stack)
  | .pushReal _, stack => some (.float :: stack)
  | .pushText _, stack => some (.ref .string :: stack)
  | .getStatic f, stack => some (.ofTy program f.ty :: stack)
  | .putStatic f, w :: stack => if w = .ofTy program f.ty then some stack else none
  | .getField f, w :: stack =>
      if w = .ref (.object (Listing.ownerClass program f.owner)) then
        some (.ofTy program f.ty :: stack)
      else none
  | .putField f, w :: o :: stack =>
      if w = .ofTy program f.ty && o = .ref (.object (Listing.ownerClass program f.owner)) then
        some stack
      else none
  | .arrayLoad k, .int :: .ref (.array d) :: stack =>
      if k.elements d then some (d.word :: stack) else none
  | .arrayStore k, w :: .int :: .ref (.array d) :: stack =>
      if k.elements d && d.takes w then some stack else none
  | .newArray elem, .int :: stack => some (.ref (.array (.ofTy program elem)) :: stack)
  | .newObjectArray, .int :: stack => some (.ref (.array .anything) :: stack)
  | .arith .neg .int, .int :: stack => some (.int :: stack)
  | .arith .neg .float, .float :: stack => some (.float :: stack)
  | .arith .neg _, _ => none
  | .arith _ .int, .int :: .int :: stack => some (.int :: stack)
  | .arith .and .float, _ | .arith .or .float, _ | .arith .xor .float, _ => none
  | .arith _ .float, .float :: .float :: stack => some (.float :: stack)
  | .intToFloat, .int :: stack => some (.float :: stack)
  | .compareFloats, .float :: .float :: stack => some (.int :: stack)
  | .dup, w :: stack => some (w :: w :: stack)
  | .pop, _ :: stack => some stack
  | _, _ => none

/-- The stack after an instruction that leaves the slots alone. -/
def Instr.onStack (program : String) (ins : Instr) (stack : List Word) : Option (List Word) :=
  match ins.host? program with
  | some ops => HostOp.run ops stack
  | none => ins.plain program stack

/-- The frame after an instruction, if its operands are there and the slot that it reads is
set. -/
def check (ctx : Context) (ins : Instr) (F : Frame) : Option Frame :=
  match ins with
  | .load k n =>
      match F.locals n with
      | some w => if n < ctx.slots && k.holds w then some ⟨w :: F.stack, F.locals⟩ else none
      | none => none
  | .store k n =>
      match F.stack with
      | w :: stack =>
          if n < ctx.slots && k.holds w then some ⟨stack, Function.update F.locals n (some w)⟩
          else none
      | [] => none
  | .ret none => if ctx.result = none then some F else none
  | .ret (some k) =>
      match F.stack with
      | w :: stack => if ctx.result = some w && k.holds w then some ⟨stack, F.locals⟩ else none
      | [] => none
  | ins => (ins.onStack ctx.program F.stack).map (⟨·, F.locals⟩)

/-- What a method returns. -/
def MethodRole.result (program : String) : MethodRole → Option Word
  | .constructor | .main => none
  | .routine m => m.result.map (.ofTy program)

/-- What a method of a class finds in its slots: the object, or its arguments. -/
def MethodRole.args (program : String) (owner : Owner) : MethodRole → List Word
  | .constructor => [.ref (.object (Listing.ownerClass program owner))]
  | .main => [.ref (.array .string)]
  | .routine m => m.params.map fun d => (Desc.ofParam program d).word

/-- The context of a method. -/
def Method.context (program : String) (m : Method) : Context :=
  ⟨program, m.role.result program, m.maxLocals⟩

/-- The method passes the verifier: there is a frame for every position such that control finds
the frame's promises kept at every position that it can reach. -/
def Verified (program : String) (owner : Owner) (m : Method) : Prop :=
  (m.role.args program owner).length ≤ m.maxLocals ∧
  ∃ T : Nat → Frame,
    (⟨[], fun n => (m.role.args program owner)[n]?⟩ : Frame) ≤ T 0 ∧
    ∀ i, Reachable m.code.instrs i →
      ∃ ins F, m.code.instrs[i]? = some ins ∧ check (m.context program) ins (T i) = some F ∧
        (∀ j, Edge m.code.instrs i j → F ≤ T j) ∧
        (T i).stack.length ≤ m.code.maxStack ∧ F.stack.length ≤ m.code.maxStack ∧
        ∀ ops k stack, ins.host? program = some ops →
          HostOp.run (ops.take k) (T i).stack = some stack → stack.length ≤ m.code.maxStack

lemma length_of_takeAll {ds : List Desc} {stack rest : List Word}
    (h : takeAll ds stack = some rest) : stack.length = rest.length + ds.length := by
  induction ds generalizing stack with
  | nil =>
    cases h
    rfl
  | cons d ds ih =>
    cases stack with
    | nil => cases h
    | cons w stack =>
      simp only [takeAll] at h
      split at h
      next => simp [ih h, Nat.add_assoc]
      next => cases h

/-- The arguments of a call are on the stack in reverse order. -/
lemma takeAll_append {ds es : List Desc} {stack : List Word} :
    takeAll (ds ++ es) (ds.map Desc.word ++ stack) = takeAll es stack := by
  induction ds with
  | nil => rfl
  | cons d ds ih => simpa [takeAll] using ih

lemma length_leaving (result : Option Desc) (stack : List Word) :
    (leaving result stack).length = stack.length + if result.isSome then 1 else 0 := by
  cases result <;> rfl

/-- As many operands are taken and left as the effect says. -/
structure Balanced (e : Effect) (before after : List Word) : Prop where
  pops : e.pops ≤ before.length
  length : after.length = before.length - e.pops + e.pushes

lemma balanced_of_takeAll {ds : List Desc} {scratch : Nat} {before after : List Word}
    (h : takeAll ds before = some after) : Balanced ⟨ds.length, 0, scratch⟩ before after := by
  have hlen := length_of_takeAll h
  exact ⟨by dsimp only; omega, by dsimp only; omega⟩

lemma balanced_of_call {ds : List Desc} {result : Option Desc} {before after : List Word}
    (h : (takeAll ds before).map (leaving result) = some after) :
    Balanced ⟨ds.length, if result.isSome then 1 else 0, 0⟩ before after := by
  obtain ⟨rest, hrest, rfl⟩ := Option.map_eq_some_iff.mp h
  have hlen := length_of_takeAll hrest
  refine ⟨by dsimp only; omega, ?_⟩
  rw [length_leaving]
  dsimp only
  omega

lemma HostOp.run_singleton (op : HostOp) (stack : List Word) : run [op] stack = op.check stack := by
  simp [run]

lemma Primitive.balanced {program : String} {p : Primitive} {before after : List Word}
    (h : HostOp.run (p.expand program) before = some after) : Balanced p.effect before after := by
  cases p
  case openInput | standardInput | standardOutput =>
    cases h
    exact ⟨Nat.zero_le _, rfl⟩
  case objectInit => exact balanced_of_takeAll ((HostOp.run_singleton ..).symm.trans h)
  case wrap w => cases w <;> exact balanced_of_call ((HostOp.run_singleton ..).symm.trans h)
  all_goals exact balanced_of_call ((HostOp.run_singleton ..).symm.trans h)

/-- The stack inside of a single operation is the one before it or the one after it. -/
lemma HostOp.run_take_singleton {op : HostOp} {before after mid : List Word}
    (h : run [op] before = some after) {k : Nat} (hk : run ([op].take k) before = some mid) :
    mid = before ∨ mid = after := by
  cases k with
  | zero =>
    cases hk
    exact .inl rfl
  | succ k =>
    rw [List.take_succ_cons, List.take_nil, h] at hk
    exact .inr (Option.some.inj hk).symm

/-- Inside of a primitive the stack is never higher than before it, or than its effect says. -/
lemma Primitive.inner_le {program : String} {p : Primitive} {before after mid : List Word}
    (h : HostOp.run (p.expand program) before = some after) {k : Nat}
    (hk : HostOp.run ((p.expand program).take k) before = some mid) :
    mid.length ≤ max before.length (after.length + p.effect.scratch) := by
  cases p
  case openInput =>
    rcases Nat.lt_or_ge k 5 with hlt | hge
    · cases h
      interval_cases k <;> cases hk <;> simp [effect]
    · rw [List.take_of_length_le hge, h] at hk
      cases hk
      simp
  case wrap w =>
    cases w <;> rcases HostOp.run_take_singleton h hk with rfl | rfl <;> simp
  all_goals rcases HostOp.run_take_singleton h hk with rfl | rfl <;> simp

@[simp] theorem run_expandRecord (program record : String) (stack : List Word) :
    HostOp.run (expandRecord program record) stack =
      some (.ref (.object (Listing.recordClass program record)) :: stack) := by
  simp [expandRecord, HostOp.run, HostOp.check, takeAll, Desc.takes, Desc.word]

lemma expandRecord_inner_le {program record : String} {before mid : List Word} {k : Nat}
    (hk : HostOp.run ((expandRecord program record).take k) before = some mid) :
    mid.length ≤ before.length + 2 := by
  rcases Nat.lt_or_ge k 3 with hlt | hge
  · interval_cases k <;> cases hk <;> simp
  · rw [List.take_of_length_le hge, run_expandRecord] at hk
    cases hk
    simp

lemma Instr.plain_balanced {program : String} {ins : Instr} {before after : List Word}
    (h : ins.plain program before = some after) : Balanced ins.effect before after := by
  unfold Instr.plain at h
  split at h
  all_goals
    try split at h
    all_goals cases h
  all_goals exact ⟨by simp [effect], by simp [effect]⟩

lemma Instr.host_balanced {program : String} {ins : Instr} {ops : List HostOp}
    (hops : ins.host? program = some ops) {before after : List Word}
    (h : HostOp.run ops before = some after) : Balanced ins.effect before after := by
  cases ins <;> cases hops
  case newRecord r =>
    rw [run_expandRecord] at h
    cases h
    exact ⟨Nat.zero_le _, rfl⟩
  case invoke p => exact Primitive.balanced h
  case invokeStatic m =>
    rw [HostOp.run_singleton] at h
    simpa [effect] using balanced_of_call h

lemma Instr.onStack_balanced {program : String} {ins : Instr} {before after : List Word}
    (h : ins.onStack program before = some after) : Balanced ins.effect before after := by
  unfold Instr.onStack at h
  split at h
  next ops hops => exact host_balanced hops h
  next => exact plain_balanced h

/-- Inside of an instruction the stack is within what its effect says. -/
lemma Instr.inner_le {program : String} {ins : Instr} {ops : List HostOp}
    (hops : ins.host? program = some ops) {before after mid : List Word}
    (h : HostOp.run ops before = some after) {k : Nat}
    (hk : HostOp.run (ops.take k) before = some mid) :
    mid.length ≤ max before.length (ins.reach before.length) := by
  have hb := host_balanced hops h
  have hreach : ins.reach before.length = after.length + ins.effect.scratch := by
    rw [Instr.reach, Instr.after, hb.length]
  rw [hreach]
  cases ins <;> cases hops
  case newRecord r =>
    have hlen : after.length = before.length + 1 := hb.length
    have hmid := expandRecord_inner_le hk
    simp only [effect]
    omega
  case invoke p => exact Primitive.inner_le h hk
  case invokeStatic m => rcases HostOp.run_take_singleton h hk with rfl | rfl <;> simp

/-- What the verifier accepts agrees with the account of the stack depth. -/
theorem check_balanced {ctx : Context} {ins : Instr} {F G : Frame} (h : check ctx ins F = some G) :
    Balanced ins.effect F.stack G.stack := by
  unfold check at h
  split at h
  case h_1 k n =>
    split at h
    next w _ =>
      split at h
      next =>
        cases h
        exact ⟨Nat.zero_le _, rfl⟩
      next => cases h
    next => cases h
  case h_2 k n =>
    split at h
    next w stack hstack =>
      split at h
      next =>
        cases h
        rw [hstack]
        exact ⟨by simp [Instr.effect], by simp [Instr.effect]⟩
      next => cases h
    next => cases h
  case h_3 =>
    split at h
    next =>
      cases h
      exact ⟨Nat.zero_le _, rfl⟩
    next => cases h
  case h_4 k =>
    split at h
    next w stack hstack =>
      split at h
      next =>
        cases h
        rw [hstack]
        exact ⟨by simp [Instr.effect], by simp [Instr.effect]⟩
      next => cases h
    next => cases h
  case h_5 =>
    obtain ⟨stack, hstack, rfl⟩ := Option.map_eq_some_iff.mp h
    exact Instr.onStack_balanced hstack

end PascalJvm.Jvm
