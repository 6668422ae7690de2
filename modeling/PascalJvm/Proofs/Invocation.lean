import Mathlib.Logic.Relation
import Mathlib.Tactic
import PascalJvm.Proofs.ExpressionRuns
import PascalJvm.Proofs.Passing

/-!
# A machine with calls

The machine runs two more instructions: one makes an array, and one calls a method, which takes
its arguments from the stack and leaves its result there. A run is followed together with the
slots that no step of it changes (`World.Leads`), because the slots of the cells have to outlast
the calls in between.
-/
namespace PascalJvm.Run

open Jvm

namespace World

variable (w : World)

def act : Instr → State → Eval (Option Label × State)
  | .newArray t, ⟨.int n :: st, σ⟩ =>
      if 0 ≤ n then do
        let a ← w.room σ.heap
        let elements := List.replicate n.toInt.toNat (w.blank t)
        return (none, ⟨.ref a :: st, σ.put a (.array elements)⟩)
      else .error .stuck
  | .invokeStatic m, ⟨st, σ⟩ =>
      if m.params.length ≤ st.length then do
        let (r, g) ← w.call m (st.take m.params.length).reverse σ.shared
        return (none, ⟨r.toList ++ st.drop m.params.length, σ.resume g⟩)
      else .error .stuck
  | ins, s => Run.act w.toHost ins s

def step (code : List Instr) (c : Config) : Eval Config := do
  let ins ← Store.orStuck code[c.pc]?
  let (target, s) ← w.act ins c.state
  return ⟨← goTo code c.pc target, s⟩

/-- A run in which no step changes a slot of `kept`. -/
def Leads (code : List Instr) (kept : Set Nat) : Config → Config → Prop :=
  Relation.ReflTransGen fun c d => w.step code c = .ok d ∧
    ∀ n ∈ kept, d.state.store.slots n = c.state.store.slots n

/-- From `c` the machine does as the computation, and leaves the slots of `kept` alone. -/
structure Follows (code : List Instr) (kept : Set Nat) {α : Type} (c : Config) (x : Eval α)
    (out : α → Config → Prop) : Prop where
  reaches {a : α} (h : x = .ok a) : ∃ d, w.Leads code kept c d ∧ out a d
  traps {t : Trap} (h : x = .error (.trap t)) :
    ∃ d, w.Leads code kept c d ∧ w.step code d = .error (.trap t)

/-- Wherever the block stands, it does as the computation, and leaves the slots of `kept` alone. -/
def Runs (kept : Set Nat) {α : Type} (block : List Instr) (s : State) (x : Eval α)
    (out : α → State → Prop) : Prop :=
  ∀ ⦃code : List Instr⦄ ⦃p : Nat⦄, (boundLabels code).Nodup → CodeAt code p block →
    w.Follows code kept ⟨p, s⟩ x fun a d => d.pc = p + block.length ∧ out a d.state

end World

/-- The instruction changes no slot of `kept`. -/
def Instr.Spares (kept : Set Nat) : Instr → Prop
  | .store _ n => n ∉ kept
  | _ => True

section

variable {w : World} {code : List Instr} {c d e : Config} {kept kept' : Set Nat}

lemma write_slots {σ τ : Store} {k : Kind} {v : Value} {loc : Location} {n : Nat}
    (h : σ.write k v loc = .ok τ) (hloc : loc ≠ .slot n) : τ.slots n = σ.slots n := by
  cases loc with
  | static name =>
    cases h
    rfl
  | slot m =>
    cases h
    exact Function.update_of_ne (fun hnm => hloc (by rw [hnm])) _ _
  | field a name =>
    simp only [Store.write] at h
    split at h
    · cases h
      rfl
    · cases h
  | element a i =>
    simp only [Store.write] at h
    split at h
    · split_ifs at h
      cases h
      rfl
    · cases h

lemma work_spares {host : Host} {ins : Instr} {s s' : State} (hins : Instr.Spares kept ins)
    (h : work host ins s = .ok s') {n : Nat} (hn : n ∈ kept) :
    s'.store.slots n = s.store.slots n := by
  unfold work at h
  split at h
  case h_5 k m v st σ =>
    simp only [bind_eq_ok, pure_eq_ok] at h
    obtain ⟨τ, hτ, rfl⟩ := h
    exact write_slots hτ fun hloc => hins (by cases hloc; exact hn)
  all_goals first
    | (cases h; done)
    | (cases h; rfl)
    | (simp only [bind_eq_ok, pure_eq_ok] at h
       obtain ⟨τ, hτ, rfl⟩ := h
       first | rfl | exact write_slots hτ (by simp))

/-- Where the machine without calls can go on, this one goes on in the same way. -/
lemma World.step_eq (h : Run.step w.toHost code c ≠ .error .stuck) :
    w.step code c = Run.step w.toHost code c := by
  unfold World.step Run.step at *
  cases hins : code[c.pc]? with
  | none => rfl
  | some ins =>
    rw [hins] at h
    cases ins with
    | newArray t => exact absurd rfl h
    | invokeStatic m => exact absurd rfl h
    | _ => rfl

namespace World.Leads

lemma mono (h : w.Leads code kept c d) (hk : kept' ⊆ kept) : w.Leads code kept' c d :=
  Relation.ReflTransGen.mono (fun _ _ hstep => ⟨hstep.1, fun n hn => hstep.2 n (hk hn)⟩) c d h

lemma slots (h : w.Leads code kept c d) {n : Nat} (hn : n ∈ kept) :
    d.state.store.slots n = c.state.store.slots n := by
  induction h with
  | refl => rfl
  | tail _ hstep ih => exact (hstep.2 n hn).trans ih

lemma single (h : w.step code c = .ok d)
    (hkept : ∀ n ∈ kept, d.state.store.slots n = c.state.store.slots n) : w.Leads code kept c d :=
  Relation.ReflTransGen.single ⟨h, hkept⟩

/-- A step that is no call, and changes no slot. -/
lemma of_step (h : Run.step w.toHost code c = .ok d)
    (hslots : d.state.store.slots = c.state.store.slots) : w.Leads code kept c d := by
  refine single ?_ fun n _ => by rw [hslots]
  rw [w.step_eq (by rw [h]; simp), h]

end World.Leads

namespace World.Follows

variable {α β : Type} {x : Eval α} {out out' : α → Config → Prop}

lemma ok {a : α} (hc : out a c) : w.Follows code kept c (.ok a) out where
  reaches h := by
    cases h
    exact ⟨c, .refl, hc⟩
  traps h := by cases h

lemma imp (h : w.Follows code kept c x out)
    (hout : ∀ a d, x = .ok a → w.Leads code kept c d → out a d → out' a d) :
    w.Follows code kept c x out' where
  reaches hx := by
    obtain ⟨d, hd, ha⟩ := h.reaches hx
    exact ⟨d, hd, hout _ d hx hd ha⟩
  traps := h.traps

lemma mono (h : w.Follows code kept c x out) (hk : kept' ⊆ kept) :
    w.Follows code kept' c x out where
  reaches hx := by
    obtain ⟨d, hd, ha⟩ := h.reaches hx
    exact ⟨d, hd.mono hk, ha⟩
  traps hx := by
    obtain ⟨d, hd, ht⟩ := h.traps hx
    exact ⟨d, hd.mono hk, ht⟩

lemma after (hcd : w.Leads code kept c d) (h : w.Follows code kept d x out) :
    w.Follows code kept c x out where
  reaches hx := by
    obtain ⟨e, he, ha⟩ := h.reaches hx
    exact ⟨e, hcd.trans he, ha⟩
  traps hx := by
    obtain ⟨e, he, ht⟩ := h.traps hx
    exact ⟨e, hcd.trans he, ht⟩

lemma bind {f : α → Eval β} {out' : β → Config → Prop} (h : w.Follows code kept c x out)
    (hf : ∀ a d, x = .ok a → w.Leads code kept c d → out a d →
      w.Follows code kept d (f a) out') : w.Follows code kept c (x >>= f) out' := by
  match x, h, hf with
  | .ok a, h, hf =>
    obtain ⟨d, hd, ha⟩ := h.reaches rfl
    exact (hf a d rfl hd ha).after hd
  | .error e, h, _ =>
    constructor
    · intro b hx
      cases hx
    · intro t hx
      cases hx
      exact h.traps rfl

lemma work {p : Nat} {ins : Instr} (hs : ins.straight = true) (hspares : Instr.Spares kept ins)
    (hins : code[p]? = some ins) (s : State) :
    w.Follows code kept ⟨p, s⟩ (work w.toHost ins s) fun s' d => d = ⟨p + 1, s'⟩ := by
  have hstep : Run.step w.toHost code ⟨p, s⟩ = do return ⟨p + 1, ← Run.work w.toHost ins s⟩ := by
    simp only [Run.step, hins, Store.orStuck]
    change (Run.act w.toHost ins s >>= _) = _
    rw [act_of_straight hs]
    cases Run.work w.toHost ins s <;> rfl
  constructor
  · intro s' hwork
    rw [hwork] at hstep
    refine ⟨_, .single ?_ fun n hn => work_spares hspares hwork hn, rfl⟩
    rw [w.step_eq (by rw [hstep]; simp), hstep]
    rfl
  · intro t hwork
    rw [hwork] at hstep
    refine ⟨_, .refl, ?_⟩
    rw [w.step_eq (by rw [hstep]; simp), hstep]
    rfl

lemma workAll {p : Nat} {block : List Instr} (hs : Straight block)
    (hspares : ∀ ins ∈ block, Instr.Spares kept ins) (hcode : CodeAt code p block) (s : State) :
    w.Follows code kept ⟨p, s⟩ (workAll w.toHost block s)
      fun s' d => d = ⟨p + block.length, s'⟩ := by
  induction block generalizing p s with
  | nil => exact .ok rfl
  | cons ins rest ih =>
    rw [codeAt_cons] at hcode
    obtain ⟨hins, hrest⟩ := List.forall_mem_cons.mp hs
    obtain ⟨hsi, hsr⟩ := List.forall_mem_cons.mp hspares
    refine (work hins hsi hcode.1 s).bind fun s' d _ _ hd => ?_
    rw [hd]
    simpa only [List.length_cons, Nat.add_assoc, Nat.add_comm 1] using ih hrest hsr hcode.2 s'

end World.Follows

namespace World.Runs

variable {α β : Type} {block block' : List Instr} {s : State} {x : Eval α}
  {out : α → State → Prop}

lemma nil {a : α} (h : out a s) : w.Runs kept [] s (.ok a) out := fun _ _ _ _ => .ok ⟨rfl, h⟩

lemma mono (h : w.Runs kept block s x out) (hk : kept' ⊆ kept) : w.Runs kept' block s x out :=
  fun _ _ hn hcode => (h hn hcode).mono hk

lemma append {f : α → Eval β} {out' : β → State → Prop} (h : w.Runs kept block s x out)
    (hf : ∀ a s', x = .ok a → (∀ n ∈ kept, s'.store.slots n = s.store.slots n) → out a s' →
      w.Runs kept block' s' (f a) out') : w.Runs kept (block ++ block') s (x >>= f) out' := by
  intro code p hn hcode
  rw [codeAt_append] at hcode
  refine (h hn hcode.1).bind fun a d hx hd ⟨hpc, ha⟩ => ?_
  obtain ⟨pc, s'⟩ := d
  obtain rfl : pc = p + block.length := hpc
  simpa only [List.length_append, Nat.add_assoc] using
    hf a s' hx (fun _ hm => hd.slots hm) ha hn hcode.2

/-- A result that is only taken in another way. -/
lemma recast {f : α → Eval β} {out' : β → State → Prop} (h : w.Runs kept block s x out)
    (hf : ∀ a s', x = .ok a → out a s' → ∃ b, f a = .ok b ∧ out' b s') :
    w.Runs kept block s (x >>= f) out' := by
  rw [← List.append_nil block]
  refine h.append fun a s' hx _ ha => ?_
  obtain ⟨b, hb, hout⟩ := hf a s' hx ha
  rw [hb]
  exact nil hout

/-- Straight code does what its instructions do. -/
lemma straight (hs : Straight block) (hspares : ∀ ins ∈ block, Instr.Spares kept ins)
    {f : α → State} (h : workAll w.toHost block s = do return f (← x))
    (hout : ∀ a, x = .ok a → out a (f a)) : w.Runs kept block s x out := by
  intro code p _ hcode
  have hwork := Follows.workAll (w := w) hs hspares hcode s
  constructor
  · intro a hx
    obtain ⟨d, hd, rfl⟩ := hwork.reaches (a := f a) (by rw [h, hx]; rfl)
    exact ⟨_, hd, rfl, hout a hx⟩
  · intro t hx
    exact hwork.traps (by rw [h, hx]; rfl)

/-- Straight code before a block. -/
lemma prepend {s' : State} (hs : Straight block) (hspares : ∀ ins ∈ block, Instr.Spares kept ins)
    (hwork : workAll w.toHost block s = .ok s') (h : w.Runs kept block' s' x out) :
    w.Runs kept (block ++ block') s x out := by
  intro code p hn hcode
  rw [codeAt_append] at hcode
  obtain ⟨d, hd, rfl⟩ := (Follows.workAll hs hspares hcode.1 s).reaches hwork
  refine .after hd ?_
  simpa only [List.length_append, Nat.add_assoc] using h hn hcode.2

/-- Straight code that only changes the result. -/
lemma snoc {out' : α → State → Prop} (h : w.Runs kept block s x out) (hs : Straight block')
    (hspares : ∀ ins ∈ block', Instr.Spares kept ins)
    (hwork : ∀ a s', x = .ok a → out a s' → ∃ s'', workAll w.toHost block' s' = .ok s'' ∧
      out' a s'') : w.Runs kept (block ++ block') s x out' := by
  rw [← bind_pure x]
  refine h.append fun a s' hx _ ha => ?_
  obtain ⟨s'', hwork, hout⟩ := hwork a s' hx ha
  refine straight (f := fun _ => s'') hs hspares hwork fun b hb => ?_
  cases hb
  exact hout

end World.Runs

end

end PascalJvm.Run
