import Mathlib.Logic.Relation
import Mathlib.Tactic
import PascalJvm.Proofs.CallRuns

/-!
# A machine that prints

The machine with calls, and with the operations of the host that output needs: the output stream,
arrays of objects, wrapped scalars, and the three ways to print. A run is followed together with
what its own instructions print, in order (`Console.Leads`); what a routine prints that is called
belongs to the routine.

A wrapped scalar is an object with one field, whose name stands for the class of the object.
-/
namespace PascalJvm

/-- The field of an object that wraps a scalar. -/
def Jvm.Wrapper.field : Wrapper → String
  | .int => "Integer"
  | .float => "Float"
  | .bool => "Boolean"
  | .char => "Character"

namespace Run

open Jvm Typed

def Wrapper.takes : Wrapper → Value → Bool
  | .float, .real _ => true
  | .int, .int _ | .bool, .int _ | .char, .int _ => true
  | _, _ => false

/-- What the formatter is handed for one value: a wrapped scalar, or a text as it is. -/
structure Item where
  wrapper : Option Wrapper
  value : Value
deriving DecidableEq, Repr

/-- The classes of object that a conversion letter takes. -/
def Item.accepted : Char → Item → Bool
  | 'd', ⟨some .int, .int _⟩ | 'b', ⟨some .bool, .int _⟩ | 'c', ⟨some .char, .int _⟩ => true
  | 'f', ⟨some .float, .real _⟩ => true
  | 's', ⟨none, .text _⟩ | 's', ⟨some .int, .int _⟩ => true
  | _, _ => false

inductive Print
  | plain (text : String)
  | line
  | formatted (text : String) (items : List Item)
deriving DecidableEq, Repr

def wrapping (k : Wrapper) (v : Value) : Object :=
  .record fun name => if name = k.field then some v else none

/-- The item that an element of an array of objects stands for. -/
def itemOf (heap : Heap) : Value → Option Item
  | .text s => some ⟨none, .text s⟩
  | .ref a =>
      match heap a with
      | some (.record fields) => [Wrapper.int, .float, .bool, .char].findSome? fun k =>
          (fields k.field).map (Item.mk (some k))
      | _ => none
  | _ => none

/-- A world with an output stream. -/
structure Console extends World where
  stream : Nat

namespace Console

variable (w : Console)

/-- A new object. -/
def alloc (o : Object) (σ : Store) : Eval (Nat × Store) := do
  let a ← w.room σ.heap
  return (a, σ.put a o)

/-- A new array of objects. A negative size is out of bounds. -/
def newObjects (n : Int32) (σ : Store) : Eval (Nat × Store) :=
  if 0 ≤ n then w.alloc (.array (List.replicate n.toInt.toNat (w.blank .string))) σ
  else .error (.trap .indexOutOfBounds)

def wrap (k : Wrapper) (v : Value) (σ : Store) : Eval (Nat × Store) :=
  if Wrapper.takes k v then w.alloc (wrapping k v) σ else .error .stuck

/-- The items of an array of objects. -/
def items (σ : Store) (a : Nat) : Eval (List Item) :=
  match σ.heap a with
  | some (.array es) => Store.orStuck (es.mapM (itemOf σ.heap))
  | _ => .error .stuck

/-- A reference to a new object is left on the stack. -/
def pushed (st : List Value) (r : Nat × Store) : State × List Print := (⟨.ref r.1 :: st, r.2⟩, [])

/-- What the operations for output do, and what they print. -/
def output : Instr → State → Option (Eval (State × List Print))
  | .invoke .standardOutput, ⟨st, σ⟩ => some (.ok (⟨.ref w.stream :: st, σ⟩, []))
  | .newObjectArray, ⟨.int n :: st, σ⟩ =>
      some (do return pushed st (← w.newObjects n σ))
  | .invoke (.wrap k), ⟨v :: st, σ⟩ => some (do return pushed st (← w.wrap k v σ))
  | .invoke .printPlain, ⟨.text s :: .ref out :: st, σ⟩ =>
      if out = w.stream then some (.ok (⟨st, σ⟩, [.plain s])) else none
  | .invoke .printLine, ⟨.ref out :: st, σ⟩ =>
      if out = w.stream then some (.ok (⟨st, σ⟩, [.line])) else none
  | .invoke .printFormatted, ⟨.ref a :: .text s :: .ref out :: st, σ⟩ =>
      if out = w.stream then some do
        return (⟨.ref out :: st, σ⟩, [.formatted s (← items σ a)])
      else none
  | _, _ => none

def step (code : List Instr) (c : Config) : Eval (Config × List Print) :=
  match code[c.pc]?.bind (w.output · c.state) with
  | some x => do
      let (s, printed) ← x
      return (⟨c.pc + 1, s⟩, printed)
  | none => do return (← w.toWorld.step code c, [])

/-- A run, from what was printed before it to what was printed after it. -/
def Leads (code : List Instr) : Config × List Print → Config × List Print → Prop :=
  Relation.ReflTransGen fun c d => ∃ printed, w.step code c.1 = .ok (d.1, printed) ∧
    d.2 = c.2 ++ printed

/-- From `c` the machine does as the computation. If that traps, nothing is printed. -/
structure Follows (code : List Instr) {α : Type} (c : Config) (log : List Print) (x : Eval α)
    (out : α → Config → List Print → Prop) : Prop where
  reaches {a : α} (h : x = .ok a) : ∃ d log', w.Leads code (c, log) (d, log') ∧ out a d log'
  traps {t : Trap} (h : x = .error (.trap t)) :
    ∃ d, w.Leads code (c, log) (d, log) ∧ w.step code d = .error (.trap t)

/-- Wherever the block stands, it does as the computation, and prints nothing. -/
def Runs {α : Type} (block : List Instr) (s : State) (x : Eval α)
    (out : α → State → Prop) : Prop :=
  ∀ ⦃code : List Instr⦄ ⦃p : Nat⦄ ⦃log : List Print⦄, (boundLabels code).Nodup →
    CodeAt code p block → w.Follows code ⟨p, s⟩ log x fun a d log' =>
      log' = log ∧ d.pc = p + block.length ∧ out a d.state

end Console

namespace Console

variable {w : Console} {code : List Instr} {c d : Config} {log : List Print}

/-- The operations for output are those that the machine without them is stuck at. -/
lemma output_eq_none (h : w.toWorld.step code c ≠ .error .stuck) :
    code[c.pc]?.bind (w.output · c.state) = none := by
  cases hins : code[c.pc]? with
  | none => rfl
  | some ins =>
    rw [Option.bind_some]
    unfold World.step at h
    rw [hins] at h
    obtain ⟨pc, state⟩ := c
    unfold output
    split
    case h_7 => rfl
    all_goals exact absurd rfl h

lemma step_of_world (h : w.toWorld.step code c ≠ .error .stuck) :
    w.step code c = do return (← w.toWorld.step code c, []) := by
  rw [step, output_eq_none h]

lemma step_of_output {ins : Instr} {p : Nat} {s : State} {x : Eval (State × List Print)}
    (hins : code[p]? = some ins) (hx : w.output ins s = some x) :
    w.step code ⟨p, s⟩ = do
      let (s, printed) ← x
      return (⟨p + 1, s⟩, printed) := by
  have hbind : code[p]?.bind (w.output · s) = some x := by rw [hins, Option.bind_some, hx]
  simp only [step, hbind]

/-- A run of the machine without output prints nothing. -/
lemma Leads.of_world {kept : Set Nat} (h : w.toWorld.Leads code kept c d) :
    w.Leads code (c, log) (d, log) := by
  induction h with
  | refl => exact .refl
  | tail _ hstep ih =>
    refine ih.tail ⟨[], ?_, by simp⟩
    rw [step_of_world (by rw [hstep.1]; simp), hstep.1]
    rfl

/-- A step of the machine without calls and output. -/
lemma Leads.of_step (h : Run.step w.toHost code c = .ok d) : w.Leads code (c, log) (d, log) := by
  have hstep : w.toWorld.step code c = .ok d := by rw [w.step_eq (by rw [h]; simp), h]
  refine .single ⟨[], ?_, by simp⟩
  rw [step_of_world (by rw [hstep]; simp), hstep]
  rfl

lemma Leads.of_output {ins : Instr} {p : Nat} {s s' : State} {printed : List Print}
    (hins : code[p]? = some ins) (h : w.output ins s = some (.ok (s', printed))) :
    w.Leads code (⟨p, s⟩, log) (⟨p + 1, s'⟩, log ++ printed) :=
  .single ⟨printed, step_of_output hins h, rfl⟩

namespace Follows

variable {α β : Type} {x : Eval α} {out : α → Config → List Print → Prop}

lemma ok {a : α} (h : out a c log) : w.Follows code c log (.ok a) out where
  reaches ha := by
    cases ha
    exact ⟨c, log, .refl, h⟩
  traps ht := by cases ht

lemma after (hcd : w.Leads code (c, log) (d, log)) (h : w.Follows code d log x out) :
    w.Follows code c log x out where
  reaches hx := by
    obtain ⟨e, log', he, ha⟩ := h.reaches hx
    exact ⟨e, log', hcd.trans he, ha⟩
  traps hx := by
    obtain ⟨e, he, ht⟩ := h.traps hx
    exact ⟨e, hcd.trans he, ht⟩

/-- A computation after one that prints nothing. -/
lemma bind {f : α → Eval β} {out' : β → Config → List Print → Prop} {mid : α → Config → Prop}
    (h : w.Follows code c log x fun a d log' => log' = log ∧ mid a d)
    (hf : ∀ a d, x = .ok a → mid a d → w.Follows code d log (f a) out') :
    w.Follows code c log (x >>= f) out' := by
  match x, h, hf with
  | .ok a, h, hf =>
    obtain ⟨d, log', hd, rfl, ha⟩ := h.reaches rfl
    exact (hf a d rfl ha).after hd
  | .error e, h, _ =>
    constructor
    · intro b hx
      cases hx
    · intro t hx
      cases hx
      exact h.traps rfl

/-- A run after the computation. -/
lemma extend {out' : α → Config → List Print → Prop} {mid : α → Config → Prop}
    (h : w.Follows code c log x fun a d log' => log' = log ∧ mid a d)
    (hrun : ∀ a d, x = .ok a → mid a d →
      ∃ e log', w.Leads code (d, log) (e, log') ∧ out' a e log') :
    w.Follows code c log x out' where
  reaches {a} hx := by
    obtain ⟨d, log', hd, rfl, ha⟩ := h.reaches hx
    obtain ⟨e, log', he, hout⟩ := hrun a d hx ha
    exact ⟨e, log', hd.trans he, hout⟩
  traps hx := h.traps hx

lemma imp {out' : α → Config → List Print → Prop} (h : w.Follows code c log x out)
    (hout : ∀ a d log', x = .ok a → out a d log' → out' a d log') :
    w.Follows code c log x out' where
  reaches {a} hx := by
    obtain ⟨d, log', hd, ha⟩ := h.reaches hx
    exact ⟨d, log', hd, hout a d log' hx ha⟩
  traps hx := h.traps hx

lemma of_world {kept : Set Nat} {out : α → Config → Prop}
    (h : w.toWorld.Follows code kept c x out) :
    w.Follows code c log x fun a d log' => log' = log ∧ out a d where
  reaches hx := by
    obtain ⟨d, hd, ha⟩ := h.reaches hx
    exact ⟨d, log, .of_world hd, rfl, ha⟩
  traps hx := by
    obtain ⟨d, hd, ht⟩ := h.traps hx
    refine ⟨d, .of_world hd, ?_⟩
    rw [step_of_world (by rw [ht]; simp), ht]
    rfl

end Follows

namespace Runs

variable {α β : Type} {block block' : List Instr} {s : State} {x : Eval α} {out : α → State → Prop}

lemma of_world {kept : Set Nat} (h : w.toWorld.Runs kept block s x out) : w.Runs block s x out :=
  fun _ _ _ hn hcode => .of_world (h hn hcode)

lemma nil {a : α} (h : out a s) : w.Runs [] s (.ok a) out := fun _ _ _ _ _ => .ok ⟨rfl, rfl, h⟩

lemma append {f : α → Eval β} {out' : β → State → Prop} (h : w.Runs block s x out)
    (hf : ∀ a s', x = .ok a → out a s' → w.Runs block' s' (f a) out') :
    w.Runs (block ++ block') s (x >>= f) out' := by
  intro code p log hn hcode
  rw [codeAt_append] at hcode
  refine (h hn hcode.1).bind fun a ⟨pc, s'⟩ hx ⟨hpc, ha⟩ => ?_
  obtain rfl : pc = p + block.length := hpc
  simpa only [List.length_append, Nat.add_assoc] using hf a s' hx ha hn hcode.2

lemma imp {out' : α → State → Prop} (h : w.Runs block s x out)
    (hout : ∀ a s', x = .ok a → out a s' → out' a s') : w.Runs block s x out' :=
  fun _ _ _ hn hcode => (h hn hcode).imp fun a d _ hx ha =>
    ⟨ha.1, ha.2.1, hout a d.state hx ha.2.2⟩

/-- What the code does not change is computed from the result. -/
lemma recast {f : α → Eval β} {out' : β → State → Prop} (h : w.Runs block s x out)
    (hf : ∀ a s', x = .ok a → out a s' → ∃ b, f a = .ok b ∧ out' b s') :
    w.Runs block s (x >>= f) out' := by
  rw [← List.append_nil block]
  refine h.append fun a s' hx ha => ?_
  obtain ⟨b, hb, hout⟩ := hf a s' hx ha
  rw [hb]
  exact .nil hout

lemma stuck : w.Runs block s (.error .stuck) out := by
  intro code p log _ _
  constructor <;> intro _ h <;> cases h

lemma trap {ins : Instr} {t : Trap} (h : w.output ins s = some (.error (.trap t))) :
    w.Runs [ins] s (.error (.trap t)) out := by
  intro code p log _ hcode
  have hstep := step_of_output (codeAt_singleton.mp hcode) h
  constructor
  · rintro a ⟨⟩
  · rintro t ⟨⟩
    exact ⟨_, .refl, hstep⟩

/-- A new object of the machine is one of the computation. -/
lemma alloc {ins : Instr} {o : Object} {st : List Value} {n : Nat} {σ μ : Store}
    (h : w.output ins s = some (do return pushed st (← w.alloc o μ))) (hagree : Agree n σ μ) :
    w.Runs [ins] s (w.alloc o σ) fun r s' =>
      s'.stack = .ref r.1 :: st ∧ Agree n r.2 s'.store := by
  intro code p log _ hcode
  have hstep := step_of_output (codeAt_singleton.mp hcode) h
  unfold Console.alloc at hstep ⊢
  rw [hagree.heap] at hstep
  cases hroom : w.room σ.heap with
  | ok a =>
    rw [hroom] at hstep
    constructor
    · rintro r ⟨⟩
      exact ⟨_, log, .single ⟨[], hstep, by simp⟩, rfl, rfl, rfl, hagree.put a o⟩
    · rintro t ⟨⟩
  | error e =>
    rw [hroom] at hstep
    constructor
    · rintro r ⟨⟩
    · rintro t ⟨⟩
      exact ⟨_, .refl, hstep⟩

end Runs

/-- The object that an element of an array of objects is, for a value of a type. -/
def objectFor (w : Console) (t : Ty) (v : Value) (σ : Store) : Eval (Value × Store) :=
  match Wrapper.ofKind? (.ofTy t) with
  | some k => do
      let (a, σ) ← w.wrap k v σ
      return (.ref a, σ)
  | none => .ok (v, σ)

/-- The values are evaluated from left to right, and each is put into the array before the next
one is evaluated. -/
def fill (w : Console) (a : Nat) : Nat → List Expr → Store → Eval (List Value × Store)
  | _, [], σ => .ok ([], σ)
  | n, e :: rest, σ => do
      let (v, σ) ← w.value e σ
      let (x, σ) ← w.objectFor e.ty v σ
      let σ ← σ.write .ref x (.element a (Int32.ofNat n).toInt)
      let (vs, σ) ← fill w a (n + 1) rest σ
      return (v :: vs, σ)

/-- The values of a list of expressions, in an array of objects. -/
def gather (w : Console) (es : List Expr) (σ : Store) : Eval (List Value × Store) := do
  let (a, σ) ← w.newObjects (Int32.ofNat es.length) σ
  w.fill a 0 es σ

end Console

def Item.ofTy (t : Ty) (v : Value) : Item := ⟨Wrapper.ofKind? (.ofTy t), v⟩

/-- The items for the values of a list of expressions. -/
def itemsOf (es : List Expr) (vs : List Value) : List Item :=
  List.zipWith (fun e v => Item.ofTy e.ty v) es vs

/-- There is a value for each expression, and its item is of a class that its conversion letter
takes. -/
def Suits (es : List Expr) (vs : List Value) : Prop :=
  List.Forall₂ (fun e v => Item.accepted (Emit.conversion e.ty) (.ofTy e.ty v) = true) es vs

/-- The array of objects, in part filled with the items, is hidden together with the objects that
wrap its values. -/
structure Filling (Γ : Variables) (σ₀ : Store) (a size : Nat) (done : List Item) (K : Set Nat)
    (σ : Store) : Prop where
  alike : σ₀.Alike σ
  new : σ₀.heap a = none
  sound : σ.Sound Γ.statics Γ.slots K
  hidden : a ∈ K
  array : ∃ es, σ.heap a = some (.array es) ∧ es.length = size ∧
    List.Forall₂ (fun x item => itemOf σ.heap x = some item ∧ ∀ b, x = .ref b → b ∈ K ∧ b ≠ a)
      (es.take done.length) done

section

variable {w : Console} {Γ : Variables} {K : Set Nat} {σ₀ σ τ : Store} {a size : Nat}
  {done : List Item}

lemma itemOf_congr {h h' : Heap} {x : Value} (hx : ∀ b, x = .ref b → h' b = h b) :
    itemOf h' x = itemOf h x := by
  cases x with
  | ref b => rw [itemOf, itemOf, hx b rfl]
  | _ => rfl

lemma itemOf_wrapping {h : Heap} {b : Nat} {k : Wrapper} {v : Value}
    (hb : h b = some (wrapping k v)) : itemOf h (.ref b) = some ⟨some k, v⟩ := by
  cases k <;> simp [itemOf, hb, wrapping, Wrapper.field]

lemma mapM_itemOf {h : Heap} {xs : List Value} {items : List Item}
    (hitems : List.Forall₂ (fun x item => itemOf h x = some item) xs items) :
    xs.mapM (itemOf h) = some items := by
  induction hitems with
  | nil => rfl
  | cons hx _ ih =>
    rw [List.mapM_cons, hx, ih]
    rfl

/-- The array stays what it is as long as what is hidden stays. -/
lemma Filling.keep (h : Filling Γ σ₀ a size done K σ) {K' : Set Nat} (halike : σ₀.Alike τ)
    (hsound : τ.Sound Γ.statics Γ.slots K') (hK : K ⊆ K')
    (hframe : ∀ b ∈ K, τ.heap b = σ.heap b) : Filling Γ σ₀ a size done K' τ where
  alike := halike
  new := h.new
  sound := hsound
  hidden := hK h.hidden
  array := by
    obtain ⟨es, hes, hlen, hitems⟩ := h.array
    refine ⟨es, (hframe a h.hidden).trans hes, hlen, hitems.imp fun x item hx => ?_⟩
    refine ⟨?_, fun b hb => ⟨hK (hx.2 b hb).1, (hx.2 b hb).2⟩⟩
    rw [itemOf_congr fun b hb => hframe b (hx.2 b hb).1]
    exact hx.1

lemma Filling.done_le (h : Filling Γ σ₀ a size done K σ) : done.length ≤ size := by
  obtain ⟨es, -, hlen, hitems⟩ := h.array
  have hlength := hitems.length_eq
  rw [List.length_take] at hlength
  omega

/-- The next element is set. -/
lemma Filling.set (h : Filling Γ σ₀ a size done K σ) (hσ₀ : σ₀.WellTyped Γ.statics Γ.slots)
    (hsize : size < 2 ^ 31) {x : Value} {item : Item} (hitem : itemOf σ.heap x = some item)
    (hx : ∀ b, x = .ref b → b ∈ K ∧ b ≠ a) :
    Safe (Filling Γ σ₀ a size (done ++ [item]) K)
      (σ.write .ref x (.element a (Int32.ofNat done.length).toInt)) := by
  have hle := h.done_le
  obtain ⟨es, hes, hlen, hitems⟩ := h.array
  rw [Int32.toInt_ofNat_of_lt (by omega)]
  simp only [Store.write, hes]
  split_ifs with hrange
  swap
  · trivial
  have hlt : done.length < es.length := by simpa [Store.inRange] using hrange
  change Filling Γ σ₀ a size (done ++ [item]) K (σ.put a (.array (es.set done.length x)))
  have hother : ∀ b ≠ a, (σ.put a (.array (es.set done.length x))).heap b = σ.heap b :=
    fun b hb => σ.heap_put_of_ne _ hb
  have halike : σ₀.Alike (σ.put a (.array (es.set done.length x))) := by
    refine ⟨h.alike.statics, h.alike.slots, fun b o ho => ?_⟩
    rw [hother b fun hba => by rw [hba, h.new] at ho; cases ho]
    exact h.alike.heap b o ho
  refine ⟨halike, h.new, h.sound.put_hidden h.hidden (hσ₀.alike halike), h.hidden,
    es.set done.length x, σ.heap_put_self .., by simpa using hlen, ?_⟩
  have hkept {y : Value} (hy : ∀ b, y = .ref b → b ∈ K ∧ b ≠ a) :
      itemOf (σ.put a (.array (es.set done.length x))).heap y = itemOf σ.heap y :=
    itemOf_congr fun b hb => hother b (hy b hb).2
  have htake : (es.set done.length x).take (done ++ [item]).length =
      es.take done.length ++ [x] := by
    rw [List.length_append, List.length_singleton,
      List.take_succ_eq_append_getElem (by simpa using hlt), List.take_set_of_le le_rfl]
    simp
  rw [htake]
  refine List.rel_append (hitems.imp fun y i hy => ?_) (.cons ⟨?_, hx⟩ .nil)
  · exact ⟨(hkept hy.2).trans hy.1, hy.2⟩
  · exact (hkept hx).trans hitem

/-- A scalar is wrapped in a class that its conversion letter takes. -/
lemma accepted_of_hasTy {heap : Heap} {t : Ty} {v : Value} (hscalar : t.isAggregate = false)
    (hv : HasTy heap t v) : Item.accepted (Emit.conversion t) (.ofTy t v) = true := by
  cases t with
  | basic b =>
    cases b with
    | string =>
      obtain ⟨s, rfl⟩ := hv.eq_text
      rfl
    | real =>
      obtain ⟨x, rfl⟩ := hv.eq_real
      rfl
    | integer | boolean | char =>
      obtain ⟨i, rfl⟩ := hv.eq_int rfl
      rfl
  | enum name =>
    obtain ⟨i, rfl⟩ := hv.eq_int rfl
    rfl
  | record name fields | array low len elem => cases hscalar

lemma cases_of_accepted {c : Char} {k : Option Wrapper} {v : Value}
    (h : Item.accepted c ⟨k, v⟩ = true) :
    (k = none ∧ ∃ s, v = .text s) ∨ ∃ k', k = some k' ∧ Wrapper.takes k' v = true := by
  unfold Item.accepted at h
  split at h <;> simp_all [Wrapper.takes]

/-- A value of a scalar type has its object. -/
lemma Filling.objectFor (hw : w.Sound Γ.statics) (h : Filling Γ σ₀ a size done K σ) {t : Ty}
    {v : Value} (hscalar : t.isAggregate = false) (hv : HasTy σ.heap t v) :
    Safe (fun r => ∃ K', Filling Γ σ₀ a size done K' r.2 ∧
      itemOf r.2.heap r.1 = some (.ofTy t v) ∧ ∀ b, r.1 = .ref b → b ∈ K' ∧ b ≠ a)
      (w.objectFor t v σ) := by
  unfold Console.objectFor Item.ofTy
  rcases cases_of_accepted (accepted_of_hasTy hscalar hv) with ⟨hk, s, rfl⟩ | ⟨k, hk, htakes⟩
  · rw [hk]
    exact ⟨K, h, rfl, fun b hb => by cases hb⟩
  · rw [hk]
    simp only [Console.wrap, htakes, if_true, Console.alloc, bind_assoc, pure_bind]
    refine (hw.room σ.heap).bind fun b hnew => ?_
    have hne : ∀ c ∈ K, c ≠ b := by
      rintro c hc rfl
      obtain ⟨o, ho⟩ := h.sound.shared.present hc
      change σ.heap c = some o at ho
      rw [hnew] at ho
      cases ho
    obtain ⟨halike, hsound⟩ := put_new (wrapping k v) h.sound hnew
    refine ⟨insert b K, ?_, itemOf_wrapping (σ.heap_put_self ..), ?_⟩
    · exact h.keep (h.alike.trans halike) hsound (Set.subset_insert b K)
        fun c hc => σ.heap_put_of_ne _ (hne c hc)
    · rintro c ⟨⟩
      exact ⟨.inl rfl, (hne a h.hidden).symm⟩

/-- The array is as it was after a value has been evaluated. -/
lemma Filling.value (hw : w.Sound Γ.statics) (h : Filling Γ σ₀ a size done K σ) {e : Expr}
    (he : e.WellTyped Γ) : Safe (fun r => Filling Γ σ₀ a size done K r.2 ∧
      HasTy r.2.heap e.ty r.1) (w.value e σ) := by
  refine (value_safe hw e he h.sound).mono fun r hr => ⟨?_, hr.2.1⟩
  exact h.keep (h.alike.trans hr.1.alike) hr.1.sound (Set.Subset.refl K) fun b hb => hr.1.frame hb

/-- All that is gathered ends up in the array. -/
lemma Filling.fill (hw : w.Sound Γ.statics) (hσ₀ : σ₀.WellTyped Γ.statics Γ.slots)
    (hsize : size < 2 ^ 31) {es : List Expr}
    (hes : ∀ e ∈ es, e.WellTyped Γ ∧ e.ty.isAggregate = false)
    (h : Filling Γ σ₀ a size done K σ) :
    Safe (fun r => Suits es r.1 ∧ ∃ K', Filling Γ σ₀ a size (done ++ itemsOf es r.1) K' r.2)
      (w.fill a done.length es σ) := by
  induction es generalizing done K σ with
  | nil => exact ⟨.nil, K, by simpa [itemsOf] using h⟩
  | cons e es ih =>
    obtain ⟨⟨he, hscalar⟩, hes⟩ := List.forall_mem_cons.mp hes
    unfold Console.fill
    refine (h.value hw he).bind fun (v, σ₁) ⟨h₁, hty⟩ => ?_
    refine (h₁.objectFor hw hscalar hty).bind fun (x, σ₂) ⟨K₂, h₂, hitem, hhidden⟩ => ?_
    refine (h₂.set hσ₀ hsize hitem hhidden).bind fun σ₃ h₃ => ?_
    have hrest := ih hes h₃
    rw [List.length_append, List.length_singleton] at hrest
    refine hrest.bind fun (vs, τ) ⟨hsuits, K', h'⟩ => ⟨.cons ?_ hsuits, K', ?_⟩
    · exact accepted_of_hasTy hscalar hty
    · simpa [itemsOf] using h'

/-- The size that an array is given for a number of values is not larger than the number. -/
lemma toNat_ofNat_le {n : Nat} (hn : 0 ≤ Int32.ofNat n) :
    (Int32.ofNat n).toInt.toNat ≤ n ∧ (Int32.ofNat n).toInt.toNat < 2 ^ 31 := by
  have hlt := (Int32.ofNat n).toInt_lt
  rw [Int32.le_iff_toInt_le, Int32.toInt_zero] at hn
  rw [Int32.toInt_ofNat', Int.bmod_def, Int32.size] at hn hlt ⊢
  split_ifs at hn hlt ⊢ <;> omega

lemma Filling.start (hw : w.Sound Γ.statics) (hσ : σ.Sound Γ.statics Γ.slots K) (n : Int32) :
    Safe (fun r => 0 ≤ n ∧ Filling Γ σ r.1 n.toInt.toNat [] (insert r.1 K) r.2)
      (w.newObjects n σ) := by
  unfold Console.newObjects
  split_ifs with hn
  · refine (hw.room σ.heap).bind fun a hnew => ⟨hn, ?_⟩
    obtain ⟨halike, hsound⟩ := put_new _ hσ hnew
    exact ⟨halike, hnew, hsound, .inl rfl, _, σ.heap_put_self .., by simp, .nil⟩
  · trivial

/-- An array that was made for the values and has all of them has nothing else. -/
lemma Filling.items {n : Nat} {items : List Item} (hn : 0 ≤ Int32.ofNat n)
    (h : Filling Γ σ₀ a (Int32.ofNat n).toInt.toNat items K σ) (hlen : items.length = n) :
    Console.items σ a = .ok items := by
  have hdone := h.done_le
  obtain ⟨arr, harr, hlength, hitems⟩ := h.array
  have hle := (toNat_ofNat_le hn).1
  have hcount : items.length = arr.length := by omega
  rw [hcount, List.take_length] at hitems
  have hmap : arr.mapM (itemOf σ.heap) = some items := mapM_itemOf (hitems.imp fun _ _ hx => hx.1)
  simp only [Console.items, harr, hmap, Store.orStuck]

/-- The values are gathered, or one of them has no result. -/
lemma gather_safe (hw : w.Sound Γ.statics) (hσ : σ.Sound Γ.statics Γ.slots K) {es : List Expr}
    (hes : ∀ e ∈ es, e.WellTyped Γ ∧ e.ty.isAggregate = false) :
    Safe (fun r => Suits es r.1) (w.gather es σ) := by
  refine (Filling.start hw hσ _).bind fun (a, τ) ⟨hn, hstart⟩ => ?_
  exact (hstart.fill hw hσ.wellTyped (toNat_ofNat_le hn).2 hes).mono fun r hr => hr.1

end

end Run
end PascalJvm
