import Mathlib.Tactic
import PascalJvm.Proofs.CallRuns

/-!
# Rounds of a loop

A loop stands in code, and its body in the loop. `Rounds` is a run that stays in the loop, together
with the configurations in which it came into the body from outside: one for each time that the
body is run. The machine may know more instructions than the ones that the loop itself has
(`World.ExtendedBy`).

The code of an expression can jump, so a run of it is first followed in the code of the expression
alone, which it cannot leave, and then moved to where the code stands (`World.step_shift`).
-/
namespace PascalJvm.Run

open Jvm

/-- The positions of a loop, and of the body in it. -/
structure LoopSpan where
  first : Nat
  enter : Nat
  leave : Nat
  last : Nat

namespace LoopSpan

/-- A loop at `pc`, with its body `enter` places on. -/
def standing (pc enter : Nat) (loop body : List Instr) : LoopSpan :=
  ⟨pc, pc + enter, pc + enter + body.length, pc + loop.length⟩

variable (l : LoopSpan)

def InBody (p : Nat) : Prop := l.enter ≤ p ∧ p < l.leave

instance (p : Nat) : Decidable (l.InBody p) := inferInstanceAs (Decidable (_ ∧ _))

/-- The configuration after a step, if the step comes into the body from outside. -/
def entry (c d : Config) : List Config := if ¬l.InBody c.pc ∧ d.pc = l.enter then [d] else []

lemma entry_of_inBody {c d : Config} (h : l.InBody c.pc) : l.entry c d = [] :=
  if_neg fun hc => hc.1 h

lemma entry_of_ne {c d : Config} (h : d.pc ≠ l.enter) : l.entry c d = [] := if_neg fun hc => h hc.2

end LoopSpan

/-- A run in the loop, with the configurations in which it comes into the body. -/
inductive Rounds (next : Config → Eval Config) (l : LoopSpan) :
    Config → List Config → Config → Prop
  | refl (c : Config) : Rounds next l c [] c
  | step {c d e : Config} {ds : List Config} (hin : l.first ≤ c.pc ∧ c.pc < l.last)
      (h : next c = .ok d) (rest : Rounds next l d ds e) : Rounds next l c (l.entry c d ++ ds) e

/-- A run through the body. -/
def BodyRun (next : Config → Eval Config) (l : LoopSpan) : Config → Config → Prop :=
  Relation.ReflTransGen fun c d => l.InBody c.pc ∧ next c = .ok d

/-- Where the machine of `w` can go on, the other one goes on in the same way. -/
def World.ExtendedBy (w : World) (code : List Instr) (next : Config → Eval Config) : Prop :=
  ∀ ⦃c⦄, w.step code c ≠ .error .stuck → next c = w.step code c

lemma World.ExtendedBy.step {w : World} {code : List Instr} {next : Config → Eval Config}
    {c d : Config} (hnext : w.ExtendedBy code next) (h : Run.step w.toHost code c = .ok d) :
    next c = .ok d := by
  have hstep : w.step code c = .ok d := by rw [w.step_eq (by rw [h]; simp), h]
  rw [hnext (by rw [hstep]; simp), hstep]

namespace Rounds

variable {next : Config → Eval Config} {l : LoopSpan} {c d e : Config} {ds es : List Config}

lemma trans (h : Rounds next l c ds d) (h' : Rounds next l d es e) :
    Rounds next l c (ds ++ es) e := by
  induction h with
  | refl => exact h'
  | step hin hstep _ ih =>
    rw [List.append_assoc]
    exact .step hin hstep (ih h')

/-- A step that does not come into the body. -/
lemma silent (hin : l.first ≤ c.pc ∧ c.pc < l.last) (h : next c = .ok d)
    (hentry : l.entry c d = []) (rest : Rounds next l d ds e) : Rounds next l c ds e := by
  have hrun := step hin h rest
  rwa [hentry, List.nil_append] at hrun

/-- Within the body nothing comes into it. -/
lemma of_bodyRun (hfirst : l.first ≤ l.enter) (hlast : l.leave ≤ l.last)
    (h : BodyRun next l c d) : Rounds next l c [] d := by
  induction h using Relation.ReflTransGen.head_induction_on with
  | refl => exact .refl d
  | head hstep _ ih =>
    exact silent ⟨hfirst.trans hstep.1.1, hstep.1.2.trans_le hlast⟩ hstep.2
      (l.entry_of_inBody hstep.1) ih

/-- A run that leaves the loop is the longest one. -/
lemma length_le (h : Rounds next l c ds d) (hd : d.pc = l.last) (h' : Rounds next l c es e) :
    es.length ≤ ds.length := by
  induction h generalizing es with
  | refl =>
    cases h' with
    | refl => exact le_rfl
    | step hin _ _ => omega
  | step hin hstep _ ih =>
    cases h' with
    | refl => exact Nat.zero_le _
    | step _ hstep' rest =>
      obtain rfl := Except.ok.inj (hstep.symm.trans hstep')
      have hle := ih hd rest
      simp only [List.length_append]
      omega

end Rounds

section

variable {w : World} {code block : List Instr} {q : Nat} {next : Config → Eval Config}
  {l : LoopSpan}

/-- A label of a block stands where the block stands. -/
lemma place_shift {x : Label} {j : Nat} (hn : (boundLabels code).Nodup)
    (hcode : CodeAt code q block) (h : place block x = some j) :
    place code x = some (q + j) ∧ j < block.length := by
  obtain ⟨hlt, hbound, -⟩ := List.findIdx?_eq_some_iff_getElem.mp h
  refine ⟨place_eq hn (hcode j _ ?_), hlt⟩
  rw [List.getElem?_eq_getElem hlt, Instr.eq_label_of_bound (of_decide_eq_true hbound)]

lemma goTo_shift {target : Option Label} {i j : Nat} (hn : (boundLabels code).Nodup)
    (hcode : CodeAt code q block) (hi : i < block.length) (h : goTo block i target = .ok j) :
    goTo code (q + i) target = .ok (q + j) ∧ j ≤ block.length := by
  cases target with
  | none =>
    cases h
    exact ⟨rfl, hi⟩
  | some x =>
    rw [goTo] at h ⊢
    cases hplace : place block x with
    | none =>
      rw [hplace] at h
      cases h
    | some k =>
      rw [hplace] at h
      cases h
      obtain ⟨hshift, hlt⟩ := place_shift hn hcode hplace
      rw [hshift]
      exact ⟨rfl, hlt.le⟩

/-- A step in a block alone is one where the block stands. -/
lemma World.step_shift {i j : Nat} {s s' : State} (hn : (boundLabels code).Nodup)
    (hcode : CodeAt code q block) (h : w.step block ⟨i, s⟩ = .ok ⟨j, s'⟩) :
    w.step code ⟨q + i, s⟩ = .ok ⟨q + j, s'⟩ ∧ i < block.length ∧ j ≤ block.length := by
  unfold World.step at h ⊢
  cases hins : block[i]? with
  | none =>
    rw [hins] at h
    cases h
  | some ins =>
    have hi := (List.getElem?_eq_some_iff.mp hins).1
    rw [hins] at h
    rw [hcode i ins hins]
    simp only [Store.orStuck, bind_eq_ok, pure_eq_ok, Prod.exists, Except.ok.injEq,
      exists_eq_left', Config.mk.injEq] at h ⊢
    obtain ⟨target, s'', hact, k, hgo, rfl, rfl⟩ := h
    obtain ⟨hshift, hle⟩ := goTo_shift hn hcode hi hgo
    exact ⟨⟨target, s'', hact, _, hshift, rfl, rfl⟩, hi, hle⟩

lemma nodup_of_codeAt (hn : (boundLabels code).Nodup) (hcode : CodeAt code q block) :
    (boundLabels block).Nodup := by
  have hblock : block = (code.drop q).take block.length := by
    refine List.ext_getElem? fun j => ?_
    rw [List.getElem?_take, List.getElem?_drop]
    split_ifs with hj
    · rw [List.getElem?_eq_getElem hj]
      exact (hcode j _ (List.getElem?_eq_getElem hj)).symm
    · exact List.getElem?_eq_none (not_lt.mp hj)
  have hsub : block.Sublist code := by
    rw [hblock]
    exact (List.take_sublist ..).trans (List.drop_sublist ..)
  exact (hsub.filterMap _).nodup hn

/-- A run in a block alone is a run in the loop where the block stands, if it cannot come into the
body there. -/
lemma Rounds.of_path {path : Config → Config → Prop} (hn : (boundLabels code).Nodup)
    (hcode : CodeAt code q block) (hnext : w.ExtendedBy code next) (hfirst : l.first ≤ q)
    (hlast : q + block.length ≤ l.last)
    (hpath : ∀ ⦃c d⦄, path c d → w.step block c = .ok d ∧
      (d.pc ≤ block.length → l.entry ⟨q + c.pc, c.state⟩ ⟨q + d.pc, d.state⟩ = []))
    {c d : Config} (h : Relation.ReflTransGen path c d) :
    Rounds next l ⟨q + c.pc, c.state⟩ [] ⟨q + d.pc, d.state⟩ := by
  induction h using Relation.ReflTransGen.head_induction_on with
  | refl => exact .refl _
  | head hstep _ ih =>
    obtain ⟨hstep, hentry⟩ := hpath hstep
    obtain ⟨hshift, hlt, hle⟩ := World.step_shift hn hcode hstep
    refine .silent ⟨?_, ?_⟩ ?_ (hentry hle) ih
    · exact hfirst.trans (Nat.le_add_right ..)
    · exact (Nat.add_lt_add_left hlt q).trans_le hlast
    · rw [hnext (by rw [hshift]; simp), hshift]

/-- Code before the body. -/
lemma Rounds.before_body {kept : Set Nat} {s s' : State} (hn : (boundLabels code).Nodup)
    (hcode : CodeAt code q block) (hnext : w.ExtendedBy code next) (hfirst : l.first ≤ q)
    (henter : q + block.length < l.enter) (hlast : l.enter ≤ l.last)
    (h : w.Leads block kept ⟨0, s⟩ ⟨block.length, s'⟩) :
    Rounds next l ⟨q, s⟩ [] ⟨q + block.length, s'⟩ := by
  refine of_path hn hcode hnext hfirst (henter.le.trans hlast)
    (fun c d hstep => ⟨hstep.1, fun hd => l.entry_of_ne ?_⟩) h
  exact Nat.ne_of_lt ((Nat.add_le_add_left hd q).trans_lt henter)

/-- A run of the block alone. -/
lemma World.Runs.leads {kept : Set Nat} {α : Type} {x : Eval α} {out : α → State → Prop}
    {s : State} (h : w.Runs kept block s x out) (hn : (boundLabels block).Nodup) {a : α}
    (hx : x = .ok a) : ∃ s', w.Leads block kept ⟨0, s⟩ ⟨block.length, s'⟩ ∧ out a s' := by
  obtain ⟨⟨pc, s'⟩, hlead, hpc, hout⟩ := (h hn codeAt_self).reaches hx
  obtain rfl : pc = block.length := by simpa using hpc
  exact ⟨s', hlead, hout⟩

lemma Runs.reaches {host : Host} {α : Type} {x : Eval α} {out : α → State} {s : State}
    (h : Runs host block s x out) (hn : (boundLabels block).Nodup) {a : α} (hx : x = .ok a) :
    Reaches host block ⟨0, s⟩ ⟨block.length, out a⟩ := by
  simpa using (h hn codeAt_self).reaches hx

lemma World.Leads.of_reaches {c d : Config} (h : Reaches w.toHost block c d) :
    w.Leads block ∅ c d := by
  refine Relation.ReflTransGen.mono (fun c d hstep => ⟨?_, fun _ hm => hm.elim⟩) _ _ h
  rw [w.step_eq (by rw [hstep]; simp), hstep]

/-- A run of the code of the body alone is a run through the body. -/
lemma BodyRun.of_leads {kept : Set Nat} {s s' : State} (hn : (boundLabels code).Nodup)
    (hcode : CodeAt code l.enter block) (hnext : w.ExtendedBy code next)
    (hleave : l.leave = l.enter + block.length)
    (h : w.Leads block kept ⟨0, s⟩ ⟨block.length, s'⟩) :
    BodyRun next l ⟨l.enter, s⟩ ⟨l.leave, s'⟩ := by
  have hshifted : ∀ {c d : Config}, w.Leads block kept c d →
      BodyRun next l ⟨l.enter + c.pc, c.state⟩ ⟨l.enter + d.pc, d.state⟩ := by
    intro c d h
    induction h with
    | refl => exact .refl
    | tail _ hstep ih =>
      obtain ⟨hshift, hlt, -⟩ := World.step_shift hn hcode hstep.1
      refine ih.tail ⟨⟨Nat.le_add_right .., ?_⟩, ?_⟩
      · rw [hleave]
        exact Nat.add_lt_add_left hlt _
      · rw [hnext (by rw [hshift]; simp), hshift]
  rw [hleave]
  exact hshifted h

/-- Straight code goes on with the next instruction. -/
lemma pc_of_straight {host : Host} (hs : Straight block) {c d : Config}
    (h : step host block c = .ok d) : d.pc = c.pc + 1 := by
  unfold step at h
  cases hins : block[c.pc]? with
  | none =>
    rw [hins] at h
    cases h
  | some ins =>
    have hact : act host ins c.state = _ :=
      act_of_straight (hs ins (List.mem_of_getElem? hins)) c.state
    simp only [hins, Store.orStuck, hact, bind_eq_ok, pure_eq_ok, Except.ok.injEq,
      exists_eq_left', Prod.exists, Prod.mk.injEq] at h
    obtain ⟨target, s, ⟨s', -, rfl, rfl⟩, pc, hgo, rfl⟩ := h
    exact (Except.ok.inj hgo).symm

/-- Straight code after the body. -/
lemma Rounds.after_body {s s' : State} (hn : (boundLabels code).Nodup)
    (hcode : CodeAt code q block) (hnext : w.ExtendedBy code next) (hfirst : l.first ≤ l.enter)
    (henter : l.enter ≤ q) (hlast : q + block.length ≤ l.last) (hs : Straight block)
    (h : Reaches w.toHost block ⟨0, s⟩ ⟨block.length, s'⟩) :
    Rounds next l ⟨q, s⟩ [] ⟨q + block.length, s'⟩ := by
  refine of_path hn hcode hnext (hfirst.trans henter) hlast (fun c d hstep => ⟨?_, fun _ => ?_⟩) h
  · rw [w.step_eq (by rw [hstep]; simp), hstep]
  · refine l.entry_of_ne ?_
    rw [pc_of_straight hs hstep]
    change q + (c.pc + 1) ≠ l.enter
    omega

end

end PascalJvm.Run
