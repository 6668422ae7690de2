import Mathlib.Tactic
import PascalJvm.Proofs.SlotUse

/-!
# Cells

A scalar variable is passed by reference in a cell. The cell is made, put into a slot and filled
(`intoCell_follows`), and after the call what it holds is stored back (`outOfCell_runs`). In between
the cell is in its slot (`CellHeld`).
-/
namespace PascalJvm.Run

open Jvm Typed

namespace World

variable {w : World} {Γ : Variables} {K : Set Nat} {σ μ : Store}

lemma fetch_safe (hw : w.Sound Γ.statics) {p : Place} (h : p.WellTyped Γ)
    (hσ : σ.Sound Γ.statics Γ.slots K) : Safe (fun r => Keeps Γ K σ r.2 ∧ HasTy r.2.heap p.ty r.1 ∧
      r.1.Clear r.2.heap K) (w.fetch p σ) :=
  Finds.reading (fun _ _ => position_safe hw p h) hσ

lemma of_position {p : Place} {r : Location × Store} (h : w.position p σ = .ok r) :
    r.1.Of p := by
  cases p with
  | root s =>
    simp only [World.position, bind_eq_ok, pure_eq_ok] at h
    obtain ⟨loc, hloc, rfl⟩ := h
    exact of_locate hloc
  | field base record name t =>
    simp only [World.position, bind_eq_ok, pure_eq_ok] at h
    obtain ⟨-, -, a, -, rfl⟩ := h
    exact ⟨a, rfl⟩
  | element base index low elem =>
    simp only [World.position, bind_eq_ok, pure_eq_ok] at h
    obtain ⟨-, -, a, -, -, -, i, -, rfl⟩ := h
    exact ⟨a, _, rfl⟩

lemma follows_newArray {code : List Instr} {kept : Set Nat} {p : Nat} {t : Ty} {st : List Value}
    (h : code[p]? = some (.newArray t)) : w.Follows code kept ⟨p, .int 1 :: st, μ⟩ (w.room μ.heap)
      fun a d => d = ⟨p + 1, .ref a :: st, μ.put a (.array [w.blank t])⟩ := by
  have hstep : w.step code ⟨p, .int 1 :: st, μ⟩ = w.room μ.heap >>= fun a =>
      .ok ⟨p + 1, .ref a :: st, μ.put a (.array [w.blank t])⟩ := by
    simp only [World.step, h, Store.orStuck]
    change (w.act (.newArray t) ⟨.int 1 :: st, μ⟩ >>= _) = _
    rw [World.act, if_pos (by decide)]
    cases w.room μ.heap <;> rfl
  constructor
  · intro a ha
    rw [ha] at hstep
    exact ⟨_, .single hstep fun _ _ => rfl, rfl⟩
  · intro t ht
    rw [ht] at hstep
    exact ⟨_, .refl, hstep⟩

lemma leads_store {code : List Instr} {kept : Set Nat} {p n : Nat} {k : Kind} {v : Value}
    {st : List Value} (h : code[p]? = some (.store k n)) (hn : n ∉ kept) :
    w.Leads code kept ⟨p, v :: st, μ⟩ ⟨p + 1, st, μ.setSlot n v⟩ := by
  have hstep : Run.step w.toHost code ⟨p, v :: st, μ⟩ = .ok ⟨p + 1, st, μ.setSlot n v⟩ :=
    step_of_act h rfl rfl
  refine .single (by rw [w.step_eq (by rw [hstep]; simp), hstep]) fun m hm => ?_
  have hmn : m ≠ n := fun hmn => hn (hmn ▸ hm)
  exact Function.update_of_ne hmn _ _

lemma work_load {host : Host} {k : Kind} {n : Nat} {v : Value} (h : μ.slots n = some v)
    (st : List Value) : work host (.load k n) ⟨st, μ⟩ = .ok ⟨v :: st, μ⟩ := by
  change (μ.read (.slot n) >>= _) = _
  rw [read_slot h]
  rfl

/-- On the way from `c` to `d` a new array is put into slot `n`, and from there on every
configuration has it in that slot. -/
def Held (w : World) (code : List Instr) (n a : Nat) (c d : Config) : Prop :=
  ∃ q t e, code[q]? = some (.newArray t) ∧ code[q + 1]? = some (.store .ref n) ∧ e.pc = q + 2 ∧
    w.Leads code ∅ c e ∧ e.state.store.slots n = some (.ref a) ∧ w.Leads code {n} e d

lemma Held.before {code : List Instr} {n a : Nat} {c d e : Config} {kept : Set Nat}
    (h : w.Held code n a d e) (hcd : w.Leads code kept c d) : w.Held code n a c e := by
  obtain ⟨q, t, f, hnew, hstore, hpc, hdf, hslot, hfe⟩ := h
  exact ⟨q, t, f, hnew, hstore, hpc, (hcd.mono (Set.empty_subset _)).trans hdf, hslot, hfe⟩

lemma Held.after {code : List Instr} {n a : Nat} {c d e : Config} {kept : Set Nat}
    (h : w.Held code n a c d) (hde : w.Leads code kept d e) (hn : n ∈ kept) :
    w.Held code n a c e := by
  obtain ⟨q, t, f, hnew, hstore, hpc, hcf, hslot, hfd⟩ := h
  exact ⟨q, t, f, hnew, hstore, hpc, hcf, hslot,
    hfd.trans (hde.mono (Set.singleton_subset_iff.mpr hn))⟩

lemma Held.slot {code : List Instr} {n a : Nat} {c d : Config} (h : w.Held code n a c d) :
    d.state.store.slots n = some (.ref a) := by
  obtain ⟨q, t, f, -, -, -, -, hslot, hfd⟩ := h
  rw [hfd.slots (Set.mem_singleton n), hslot]

/-- The value of the variable is put into the new cell, and the cell is pushed. -/
lemma fill_runs {place : Place} {n cell a : Nat} {lent : List Nat} {codeL : List Instr} {k : Kind}
    {u : Value} (hw : w.Sound Γ.statics) (hplace : place.WellTyped Γ)
    (hload : w.Leaves Γ n lent codeL (w.fetch place) ([·]))
    (hσ : σ.Sound Γ.statics Γ.slots K) (ha : a ∈ K) (hu : σ.heap a = some (.array [u]))
    (hagree : Agree Γ.slots.length σ μ) (hslot : μ.slots cell = some (.ref a))
    (hkept : cell ∈ spared n lent) (st : List Value) :
    w.Runs (spared n lent)
      ([Instr.load .ref cell, .pushInt 0] ++ (codeL ++ [Instr.arrayStore k, .load .ref cell]))
      ⟨st, μ⟩
      (w.fetch place σ >>= fun r => do
        return (Passed.cell a r.1, ← r.2.write k r.1 (.element a 0)))
      fun r s' => s'.stack = r.1.operand :: st ∧ Agree Γ.slots.length r.2 s'.store := by
  have hstart : workAll w.toHost [.load .ref cell, .pushInt 0] ⟨st, μ⟩ =
      .ok ⟨.int 0 :: .ref a :: st, μ⟩ := by
    rw [workAll_cons_ok (work_load hslot st)]
    rfl
  refine .prepend (by simp [Straight, Instr.straight]) (Quiet.spares (by simp [Quiet]) _) hstart ?_
  refine (hload hσ hagree _).append fun r s' hv hsame hout => ?_
  obtain ⟨v, τ⟩ := r
  obtain ⟨stack, ν⟩ := s'
  obtain ⟨hstack, hagree⟩ := hout
  obtain rfl : stack = [v] ++ (.int 0 :: .ref a :: st) := hstack
  obtain ⟨hτ, -⟩ := (fetch_safe hw hplace hσ).of_ok hv
  have hτa : τ.heap a = some (.array [u]) := (hτ.frame ha).trans hu
  have hνa : ν.heap a = some (.array [u]) := by rw [hagree.heap, hτa]
  have hνcell : ν.slots cell = some (.ref a) := (hsame cell hkept).trans hslot
  change w.Runs _ _ _ (τ.write k v (.element a 0) >>= _) _
  rw [write_cell hτa]
  refine .straight (f := fun r => ⟨r.1.operand :: st, ν.put a (.array [narrow k v])⟩)
    (by simp [Straight, Instr.straight]) (Quiet.spares (by simp [Quiet]) _) ?_ fun r hr => ?_
  · have hstore : work w.toHost (.arrayStore k) ⟨v :: .int 0 :: .ref a :: st, ν⟩ =
        .ok ⟨st, ν.put a (.array [narrow k v])⟩ := by
      change (ν.write k v (.element a (0 : Int32).toInt) >>= _) = _
      rw [Int32.toInt_zero, write_cell hνa]
      rfl
    have hslot' : (ν.put a (.array [narrow k v])).slots cell = some (.ref a) := hνcell
    change workAll _ _ ⟨v :: .int 0 :: .ref a :: st, ν⟩ = _
    rw [workAll_cons_ok hstore, workAll_singleton, work_load hslot' st]
    rfl
  · cases hr
    exact ⟨rfl, hagree.put a _⟩

/-- A slot is named for each cell that was made, and has held it ever since. -/
def CellHeld (w : World) (code : List Instr) (c d : Config) (lo hi : Nat) :
    Option Nat → Passed → Prop
  | none, .direct _ => True
  | some n, .cell a _ => lo ≤ n ∧ n < hi ∧ w.Held code n a c d
  | _, _ => False

/-- A new cell is made in the next slot of the supply. -/
lemma intoCell_follows {place : Place} {ty : Ty} {load : Emit.Gen (List Instr)} {s t : Emit.Supply}
    {block code : List Instr} {cell pc : Nat} {st : List Value} (hw : w.Sound Γ.statics)
    (hplace : place.WellTyped Γ) (hload : w.Computes Γ place.lent load (w.fetch place) ([·]))
    (h : Emit.intoCell ty load s = .ok ((block, cell), t)) (hspans : Emit.Spans load)
    (hs : Γ.slots.length ≤ s.slot) (hσ : σ.Sound Γ.statics Γ.slots K)
    (hagree : Agree Γ.slots.length σ μ) (hn : (boundLabels code).Nodup)
    (hcode : CodeAt code pc block) :
    w.Follows code (spared s.slot place.lent) ⟨pc, st, μ⟩
      (w.room σ.heap >>= fun a => w.fetch place (σ.put a (.array [w.blank ty])) >>= fun r => do
        return (Passed.cell a r.1, ← r.2.write (.ofTy ty) r.1 (.element a 0)))
      fun r d => d.pc = pc + block.length ∧ d.state.stack = r.1.operand :: st ∧
        Agree Γ.slots.length r.2 d.state.store ∧
        w.CellHeld code ⟨pc, st, μ⟩ d s.slot t.slot (some cell) r.1 := by
  simp only [Emit.intoCell, Emit.Gen.bind_ok, Emit.Gen.pure_ok, Emit.Gen.freshSlot_ok,
    Prod.mk.injEq] at h
  obtain ⟨c, u, ⟨rfl, -, hslot, -⟩, codeL, v, hcodeL, ⟨rfl, rfl⟩, rfl⟩ := h
  have hvslot := (hspans _ _ _ hcodeL).2
  have hsplit : [Instr.pushInt 1, .newArray ty, .store .ref s.slot, .load .ref s.slot, .pushInt 0] ++
      codeL ++ [Instr.arrayStore (.ofTy ty), .load .ref s.slot] =
      [Instr.pushInt 1, .newArray ty, .store .ref s.slot] ++
        ([Instr.load .ref s.slot, .pushInt 0] ++
          (codeL ++ [Instr.arrayStore (.ofTy ty), .load .ref s.slot])) := by
    simp
  rw [hsplit] at hcode ⊢
  rw [codeAt_append] at hcode
  obtain ⟨hfirst, hrest⟩ := hcode
  simp only [codeAt_cons, codeAt_nil, and_true] at hfirst
  obtain ⟨hone, hnew, hstore⟩ := hfirst
  have hpush : ∀ kept, w.Leads code kept ⟨pc, st, μ⟩ ⟨pc + 1, .int 1 :: st, μ⟩ := fun kept =>
    .of_step (step_of_act hone rfl rfl) rfl
  refine .after (hpush _) ?_
  rw [← hagree.heap]
  refine (follows_newArray hnew).bind fun a d ha hlead hd => ?_
  subst hd
  rw [hagree.heap] at ha
  have hput : (σ.put a (.array [w.blank ty])).Sound Γ.statics Γ.slots (insert a K) :=
    (put_new _ hσ ((hw.room σ.heap).of_ok ha)).2
  have hstored : w.Leads code (spared s.slot place.lent)
      ⟨pc + 1 + 1, .ref a :: st, μ.put a (.array [w.blank ty])⟩
      ⟨pc + 1 + 1 + 1, st, (μ.put a (.array [w.blank ty])).setSlot s.slot (.ref a)⟩ :=
    leads_store hstore fun h => h.1.ne rfl
  have hagree' := (hagree.put a (.array [w.blank ty])).setSlot hs (.ref a)
  have hkept : s.slot ∈ spared u.slot place.lent :=
    mem_spared (fun _ => Place.lent_lt hplace) hs (by omega)
  -- from here on the slot of the cell is kept as well
  have hfill := fill_runs hw hplace (hload hcodeL (by omega)) hput (.inl rfl)
    (σ.heap_put_self ..) hagree' (Function.update_self ..) hkept st hn hrest
  refine .after hstored ((hfill.imp fun r d hr hd hout => ?_).mono
    (spared_mono (by omega) (List.Subset.refl _)))
  obtain ⟨hpc, hstack, hagree⟩ := hout
  simp only [bind_eq_ok, pure_eq_ok] at hr
  obtain ⟨r', -, τ, -, rfl⟩ := hr
  refine ⟨?_, hstack, hagree, le_rfl, by omega, pc + 1, ty, _, hnew, hstore, rfl, ?_,
    Function.update_self .., hd.mono (Set.singleton_subset_iff.mpr hkept)⟩
  · rw [hpc]
    simp only [List.length_append, List.length_cons, List.length_nil]
    omega
  · exact (hpush ∅).trans (Leads.mono (hlead.trans hstored) (Set.empty_subset _))

lemma CellHeld.extend {code : List Instr} {c c' d d' : Config} {lo lo' hi hi' : Nat}
    {cell : Option Nat} {x : Passed} (h : w.CellHeld code c d lo hi cell x) (hlo : lo' ≤ lo)
    (hhi : hi ≤ hi')
    (hheld : ∀ n a, lo ≤ n → n < hi → w.Held code n a c d → w.Held code n a c' d') :
    w.CellHeld code c' d' lo' hi' cell x := by
  match cell, x, h with
  | none, .direct _, _ => trivial
  | some n, .cell a _, ⟨hn, hn', h⟩ =>
    exact ⟨hlo.trans hn, hn'.trans_le hhi, hheld n a hn hn' h⟩

/-- The cell is still in its slot. -/
def InSlot (μ : Store) (lo hi : Nat) : Option Nat → Passed → Prop
  | none, .direct _ => True
  | some n, .cell a _ => lo ≤ n ∧ n < hi ∧ μ.slots n = some (.ref a)
  | _, _ => False

lemma CellHeld.inSlot {code : List Instr} {c d : Config} {lo hi : Nat} {cell : Option Nat}
    {x : Passed} (h : w.CellHeld code c d lo hi cell x) : InSlot d.state.store lo hi cell x := by
  match cell, x, h with
  | none, .direct _, _ => trivial
  | some _, .cell _ _, ⟨hn, hn', h⟩ => exact ⟨hn, hn', h.slot⟩

lemma InSlot.keep {ν : Store} {lo hi : Nat} {cell : Option Nat} {x : Passed}
    (h : InSlot μ lo hi cell x) (hslots : ∀ n, lo ≤ n → n < hi → ν.slots n = μ.slots n) :
    InSlot ν lo hi cell x := by
  match cell, x, h with
  | none, .direct _, _ => trivial
  | some n, .cell _ _, ⟨hn, hn', h⟩ => exact ⟨hn, hn', (hslots n hn hn').trans h⟩

/-- A scalar is stored into a lent slot, or into no slot. -/
lemma store_spares {p : Place} (hscalar : p.ty.isAggregate = false) {n : Nat} {lent : List Nat}
    (hlent : p.scalarSlot ⊆ lent) :
    ∀ ins ∈ Emit.store p.ty p, Instr.Spares (spared n lent) ins := by
  match p with
  | .root ⟨name, .slot m, ty⟩ =>
    intro ins hins
    rw [List.mem_singleton.mp hins]
    rw [Place.ty_root] at hscalar
    exact fun hm => hm.2 (hlent (by simp [Place.scalarSlot, hscalar]))
  | .root ⟨_, .static _, _⟩ | .root ⟨_, .cell _, _⟩ | .field .. | .element .. =>
    exact Quiet.spares (by simp [Quiet, Emit.store]) _

/-- What a cell holds is stored back. -/
lemma outOfCell_runs {p : Passing} {place : Place} {n cell a : Nat} {v : Value} {lent : List Nat}
    {codeA : List Instr} {st : List Value} (hw : w.Sound Γ.statics) (hplace : place.WellTyped Γ)
    (hsame : p.ty.same place.ty = true)
    (haddress : w.Leaves Γ n lent codeA (w.position place) Location.operands)
    (hσ : σ.Sound Γ.statics Γ.slots K) (hagree : Agree Γ.slots.length σ μ)
    (hreturns : (Passed.cell a v).Returns σ.heap p) (hslot : μ.slots cell = some (.ref a))
    (hkept : cell ∈ spared n lent) (hlent : place.scalarSlot ⊆ lent) :
    w.Runs (spared n lent) (Emit.outOfCell cell place.ty place codeA) ⟨st, μ⟩
      (restore (w.position place) a place.ty σ)
      fun τ s' => s'.stack = st ∧ Agree Γ.slots.length τ s'.store := by
  obtain ⟨hcell, hcontent⟩ := hreturns
  have hscalar := Passing.scalar_of_inCell hcell
  rw [Ty.eq_of_same hsame hscalar] at hscalar
  rw [Emit.outOfCell, List.append_assoc]
  refine (haddress hσ hagree st).append fun r s' hloc hslots hout => ?_
  obtain ⟨loc, τ⟩ := r
  obtain ⟨stack, ν⟩ := s'
  obtain ⟨hstack, hagree⟩ := hout
  obtain rfl : stack = loc.operands ++ st := hstack
  obtain ⟨hτ, hholds, hclear⟩ := (position_safe hw place hplace hσ).of_ok hloc
  obtain ⟨u, hu, -⟩ := hasTy_cell.mp (hτ.hasTy hcontent)
  have hνslot : ν.slots cell = some (.ref a) := (hslots cell hkept).trans hslot
  have hνcell : ν.heap a = some (.array [u]) := by rw [hagree.heap, hu]
  have hload : workAll w.toHost [.load .ref cell, .pushInt 0, .arrayLoad (.ofTy place.ty)]
      ⟨loc.operands ++ st, ν⟩ = .ok ⟨u :: (loc.operands ++ st), ν⟩ := by
    rw [workAll_cons_ok (work_load hνslot _), workAll_cons_ok rfl, workAll_singleton]
    change (ν.read (.element a (0 : Int32).toInt) >>= _) = _
    rw [Int32.toInt_zero, read_cell hνcell]
    rfl
  refine .prepend (by simp [Straight, Instr.straight]) (Quiet.spares (by simp [Quiet]) _) hload ?_
  change w.Runs _ _ _ (τ.read (.element a 0) >>= fun v => τ.write _ v loc) _
  rw [read_cell hu]
  refine .straight (f := fun υ => ⟨st, υ.over Γ.slots.length ν⟩) (Emit.straight_store _ _)
    (store_spares hscalar hlent) ?_ fun υ _ => ⟨rfl, agree_over _ _ _⟩
  rw [work_store (of_position hloc) (hagree.holds hclear hholds), hagree.write hclear]
  simp only [bind_assoc, pure_bind]
  rfl

end World

end PascalJvm.Run
